import AceShell.Paths.Normalize

/-!
# DOS devices

`dos_devices.c`: which device a name means, where a device's root is on the host, and which
device and mount a host path belongs to.
-/

namespace AceShell

open Text

/-! ## Aliases -/

/-- `DEVICE_VALUE_MAX`. -/
def deviceValueMax : ℕ := 256

def backslash : UInt8 := 92

/-- `valid_alias`. -/
def validAlias (name : Name) : Bool :=
  name != [] && decide (name.length < deviceValueMax) &&
    name.all fun c => decide (0x20 ≤ c) && c != colon && c != slash && c != backslash

/-- `device_alias_matches`. -/
def Device.aliasMatches (device : Device) (name : Name) : Bool :=
  caseEq device.kernelName name || (device.uuid != [] && caseEq device.uuid name) ||
    (device.label != [] && caseEq device.label name)

inductive DeviceLookup
  | unknown | unique | ambiguous
  deriving DecidableEq

/-- `ace_dos_devices_lookup`. -/
def Catalog.lookup (cat : Catalog) (name : Name) : DeviceLookup :=
  if validAlias name then
    match cat.devices.countP (·.aliasMatches name) with
    | 0 => .unknown
    | 1 => .unique
    | _ => .ambiguous
  else .unknown

/-- `device_for_id`. -/
def Catalog.deviceForId (cat : Catalog) (deviceId : ℕ) : Option Device :=
  cat.devices.find? (·.deviceId == deviceId)

/-- `ace_dos_devices_device_view_root`: the first device of that name decides. -/
def Catalog.deviceViewRoot (cat : Catalog) (name : Name) (resultSize : ℕ) : Except Errno Name :=
  if cat.deviceView then
    match cat.devices.find? (·.aliasMatches name) with
    | none => .error .enoent
    | some device =>
      if device.viewPath = [] then .error .enoent else copyOut device.viewPath resultSize
  else .error .einval

/-! ## The root of a device -/

/-- `supported_filesystem_type`. -/
def supportedFilesystemType (type : Name) : Bool :=
  caseEq type (ascii "vfat") || caseEq type (ascii "ext2") || caseEq type (ascii "ext3") ||
    caseEq type (ascii "ext4")

variable (host : Host)

def findExistingMount (deviceId resultSize : ℕ) : Option Name :=
  match host.mountinfo with
  | none => none
  | some records =>
    (records.find? fun record =>
      record.deviceId == deviceId && decide (record.mountPath.length < resultSize)).map
        (·.mountPath)

def ensureDeviceMount (device : Device) : Except Errno Device :=
  if device.mountPath ≠ [] then .ok device
  else if supportedFilesystemType device.filesystemType then
    match findExistingMount host device.deviceId pathMax with
    | some path => .ok { device with mountPath := path }
    | none =>
      match host.mountRoot device with
      | some path => .ok { device with mountPath := path }
      | none => .error .eacces
  else .error .enotsup

def selectedViewRoot (device : Device) : Except Errno Name :=
  match host.stat device.devicePath with
  | .ok ⟨_, .blockDevice⟩ =>
    if device.mountPath ≠ [] then .ok device.mountPath
    else if supportedFilesystemType device.filesystemType ∧ device.viewPath ≠ [] then
      .ok device.viewPath
    else .error .enotsup
  | _ => if device.mountPath = [] then .error .enoent else .ok device.mountPath

/-- `ace_dos_devices_root`; the catalog changes when the device had to be mounted. -/
def Catalog.root (cat : Catalog) (name : Name) (resultSize : ℕ) :
    Except Errno Name × Catalog :=
  if validAlias name then
    match cat.devices.filter (·.aliasMatches name) with
    | [] => (.error .enoent, cat)
    | [device] =>
      if cat.deviceView then
        match selectedViewRoot host device with
        | .error e => (.error e, cat)
        | .ok selected => (copyOut selected resultSize, cat)
      else
        match ensureDeviceMount host device with
        | .error e => (.error e, cat)
        | .ok mounted =>
          (copyOut mounted.mountPath resultSize,
            { cat with devices :=
                cat.devices.map fun d => if d.aliasMatches name then mounted else d })
    | _ => (.error .eexist, cat)
  else (.error .enoent, cat)

/-! ## Lexical normalization -/

/-- One component of a lexical walk: dots are dropped, `..` takes one back, anything else is
kept while there is room for another of the `PATH_MAX / 2` parts. -/
def pushPart (parts : List Name) (segment : Name) : Except Errno (List Name) :=
  if segment = [] ∨ segment = dotName then .ok parts
  else if segment = dotDotName then .ok parts.dropLast
  else if parts.length < pathMax / 2 then .ok (parts ++ [segment])
  else .error .enametoolong

def pushParts : List Name → List Name → Except Errno (List Name)
  | parts, [] => .ok parts
  | parts, segment :: rest =>
    match pushPart parts segment with
    | .error e => .error e
    | .ok parts' => pushParts parts' rest

def joinParts (resultSize : ℕ) : Name → List Name → Except Errno Name
  | result, [] => .ok result
  | result, part :: rest =>
    match appendComponent result part resultSize with
    | .error e => .error e
    | .ok result' => joinParts resultSize result' rest

def normalizeLexical (text : Name) (resultSize : ℕ) : Except Errno Name :=
  match pushParts [] (text.splitOn slash) with
  | .error e => .error e
  | .ok parts =>
    if resultSize < 2 then .error .enametoolong else joinParts resultSize rootPath parts

def normalizeLexicalAbsolutePath (path : Name) (resultSize : ℕ) : Except Errno Name :=
  if path.head? = some slash ∧ path.length < pathMax then normalizeLexical path resultSize
  else .error .einval

/-- `normalize_path` of `broker.c`. -/
def normalizePath (base path : Name) (resultSize : ℕ) : Except Errno Name :=
  let combined := if path.head? = some slash then path else base ++ slash :: path
  if pathMax * 2 ≤ combined.length then .error .enametoolong
  else normalizeLexical combined resultSize

/-! ## The mount a path is on -/

/-- `path_is_beneath`. -/
def pathIsBeneath (path mountPath : Name) : Bool :=
  if mountPath = rootPath then path.head? == some slash
  else mountPath.isPrefixOf path &&
    (path.length == mountPath.length || path[mountPath.length]? == some slash)

/-- One round of `find_mount_for_path`: the longest mount point wins, a later one of the same
length too. -/
def betterMount (cat : Catalog) (canonical : Name) (best : Option (MountRecord × Device))
    (record : MountRecord) : Option (MountRecord × Device) :=
  if pathIsBeneath canonical record.mountPath then
    match cat.deviceForId record.deviceId with
    | none => best
    | some candidate =>
      if (best.map (·.1.mountPath.length)).getD 0 ≤ record.mountPath.length
      then some (record, candidate) else best
  else best

def findMountForPath (cat : Catalog) (path : Name) (canonicalSize : ℕ) :
    Except Errno (Name × MountRecord × Device) :=
  match normalizeLexicalAbsolutePath path canonicalSize with
  | .error e => .error e
  | .ok canonical =>
    match host.mountinfo with
    | none => .error .eother
    | some records =>
      match records.foldl (betterMount cat canonical) none with
      | none => .error .enodev
      | some (record, device) => .ok (canonical, record, device)

/-- `append_relative_path`. -/
def appendRelativePath (root mountPath hostPath : Name) (resultSize : ℕ) : Except Errno Name :=
  let suffix := (hostPath.drop mountPath.length).dropWhile (· == slash)
  let root := root.dropWhile (· == slash)
  copyOut (root ++ (if root ≠ [] ∧ suffix ≠ [] then [slash] else []) ++ suffix) resultSize

def betterView (canonical : Name) (best : Option Device) (candidate : Device) : Option Device :=
  if candidate.viewPath ≠ [] ∧ pathIsBeneath canonical candidate.viewPath then
    match best with
    | none => some candidate
    | some device =>
      if device.viewPath.length < candidate.viewPath.length then some candidate else best
  else best

/-- The name a device goes by: its label, its kernel name or its UUID, whichever first means
this device alone. -/
def Catalog.aliasOf (cat : Catalog) (device : Device) : Except Errno Name :=
  if device.label ≠ [] ∧ cat.lookup device.label = .unique then .ok device.label
  else if cat.lookup device.kernelName = .unique then .ok device.kernelName
  else if device.uuid ≠ [] ∧ cat.lookup device.uuid = .unique then .ok device.uuid
  else .error .eexist

def nameFromPath (cat : Catalog) (path : Name) (resultSize : ℕ) :
    Except Errno Name :=
  match normalizeLexicalAbsolutePath path pathMax with
  | .error e => .error e
  | .ok canonical =>
    let located : Except Errno (Name × Name × Name × Device) :=
      match cat.devices.foldl (betterView canonical) none with
      | some device => .ok (canonical, rootPath, device.viewPath, device)
      | none =>
        match findMountForPath host cat canonical pathMax with
        | .error e => .error e
        | .ok (canonical, record, device) => .ok (canonical, record.root, record.mountPath, device)
    match located with
    | .error e => .error e
    | .ok (canonical, root, mountPath, device) =>
      match cat.aliasOf device with
      | .error e => .error e
      | .ok aliasName =>
        if resultSize ≤ aliasName.length + 1 then .error .eother
        else
          (appendRelativePath root mountPath canonical (resultSize - (aliasName.length + 1))).map
            fun text => aliasName ++ colon :: text

def volumeRootForPath (cat : Catalog) (path : Name) (resultSize : ℕ) :
    Except Errno Name :=
  match normalizeLexicalAbsolutePath path pathMax with
  | .error e => .error e
  | .ok canonical =>
    match cat.devices.find? fun device =>
        device.viewPath != [] && pathIsBeneath canonical device.viewPath with
    | some device => copyOut device.viewPath resultSize
    | none =>
      match findMountForPath host cat canonical pathMax with
      | .error e => .error e
      | .ok (_, record, _) => copyOut record.mountPath resultSize

end AceShell
