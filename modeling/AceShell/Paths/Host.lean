import AceShell.Basic

/-!
# The host as the broker sees it

What `opendir`, `stat` and `access` answer, the mount table, and the catalog of DOS devices that
`dos_devices.c` keeps. The file system does not change while one path is resolved.
-/

namespace AceShell

open Text

inductive FileKind
  | directory | regular | blockDevice | other
  deriving DecidableEq

structure FileStat where
  dev : ℕ
  kind : FileKind
  deriving DecidableEq

/-- `struct ace_dos_device`; an empty text is a field that was never filled in. -/
structure Device where
  kernelName : Name
  devicePath : Name
  filesystemType : Name
  uuid : Name
  label : Name
  deviceId : ℕ
  mountPath : Name
  mountRoot : Name
  viewPath : Name
  deriving DecidableEq

/-- `struct mount_record`: a line of `/proc/self/mountinfo` that `parse_mount_record` accepts. -/
structure MountRecord where
  deviceId : ℕ
  root : Name
  mountPath : Name
  filesystemType : Name
  source : Name
  deriving DecidableEq

structure Host where
  /-- The listing `opendir` and `readdir` give, or `none` when the directory cannot be opened. -/
  opendir : Name → Option Directory
  stat : Name → Except Errno FileStat
  /-- `access(path, F_OK) == 0`. -/
  access : Name → Bool
  /-- The records of `/proc/self/mountinfo`, or `none` when it cannot be opened. -/
  mountinfo : Option (List MountRecord)
  /-- `mount_root`: the mount point `mount` or `udisksctl` gave the device. -/
  mountRoot : Device → Option Name
  /-- The clipboard store, once `ace_clipboard_store_prepare` has made it. -/
  clipboardRoot : Option Name
  /-- The empty path names nothing. -/
  stat_nil : stat [] = .error .enoent

def Host.listing (host : Host) (path : Name) : Option (List Name) :=
  (host.opendir path).map Directory.stream

/-! ## The device catalog -/

structure Catalog where
  devices : List Device
  deviceView : Bool

/-- `ace_dos_devices_is_full_root`. -/
def Catalog.isFullRoot (cat : Catalog) (path : Name) : Bool :=
  cat.deviceView && cat.devices.any fun device => device.viewPath != [] && device.viewPath == path

end AceShell
