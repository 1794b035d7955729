import AceShell.Paths.Resolve

/-!
# Discovering mounts

`discover_mounts` runs over the mount table once the block devices are known. A record either
finds its device by id or becomes a synthetic volume; in both cases the device remembers the
shortest mount point it was seen at. When every file system is mounted once, that is the mount
point of its only record (`discoverMounts_mountPath`).
-/

namespace AceShell

open Text List Option

/-! ## Synthetic volumes -/

/-- `MAX_DOS_DEVICES`. -/
def maxDosDevices : ℕ := 128

/-- `DEVICE_NAME_MAX`. -/
def deviceNameMax : ℕ := 128

/-- `isalnum` in the C locale. -/
def isAlnum (c : UInt8) : Bool := isLetter c || (decide (48 ≤ c) && decide (c ≤ 57))

def underscore : UInt8 := 95

/-- One byte of `synthetic_alias`: runs of other characters collapse to one underscore. -/
def synthesize (resultSize : ℕ) (used : Name) (c : UInt8) : Name :=
  if used.length + 1 < resultSize then
    if isAlnum c then used ++ [toUpper c]
    else if used.getLast? = some underscore then used else used ++ [underscore]
  else used

/-- `synthetic_alias`. -/
def syntheticAlias (filesystemType : Name) (resultSize : ℕ) : Name :=
  let stem := if caseEq filesystemType (ascii "tmpfs") then ascii "RAM" else filesystemType
  let used := (stem.foldl (synthesize resultSize) []).reverse.dropWhile (· == underscore)
  if used = [] then ascii "VOLUME" else used.reverse

/-- The first of `base`, `base1`, `base2`, … that no device answers to; `none` when it no longer
fits. The aliases of the table bound the search. -/
def freeAlias (cat : Catalog) (base : Name) : ℕ → ℕ → Option Name
  | 0, _ => none
  | fuel + 1, suffix =>
    let aliasName := if suffix = 0 then base else base ++ decimal suffix
    if deviceNameMax ≤ aliasName.length then none
    else if cat.devices.any (·.aliasMatches aliasName) then freeAlias cat base fuel (suffix + 1)
    else some aliasName

def syntheticDevice (cat : Catalog) (record : MountRecord) : Option Device :=
  if maxDosDevices ≤ cat.devices.length then none
  else
    (freeAlias cat (syntheticAlias record.filesystemType deviceNameMax)
      (3 * cat.devices.length + 1) 0).map fun aliasName =>
        ⟨aliasName, record.source, record.filesystemType, [], [], record.deviceId, [], [], []⟩

/-! ## One record -/

def Device.attach (device : Device) (record : MountRecord) : Device :=
  if device.mountPath = [] ∨ record.mountPath.length < device.mountPath.length then
    { device with mountPath := record.mountPath, mountRoot := record.root }
  else device

def attachFirst (record : MountRecord) : List Device → List Device
  | [] => []
  | device :: rest =>
    if device.deviceId = record.deviceId then device.attach record :: rest
    else device :: attachFirst record rest

/-- `add_mount_device`. -/
def addMountDevice (cat : Catalog) (record : MountRecord) : Catalog :=
  match cat.deviceForId record.deviceId with
  | some _ => { cat with devices := attachFirst record cat.devices }
  | none =>
    match syntheticDevice cat record with
    | none => cat
    | some device => { cat with devices := cat.devices ++ [device.attach record] }

/-- `discover_mounts`. -/
def discoverMounts (host : Host) (cat : Catalog) : Catalog :=
  match host.mountinfo with
  | none => cat
  | some records => records.foldl addMountDevice cat

/-! ## Mounted once -/

/-- Every device that has a mount point has it from a record of its id. -/
def MountedFrom (records : List MountRecord) (cat : Catalog) : Prop :=
  ∀ device ∈ cat.devices, device.mountPath = [] ∨
    ∃ record ∈ records, record.deviceId = device.deviceId ∧ device.mountPath = record.mountPath

variable {record : MountRecord} {device : Device}

theorem mem_attachFirst {devices : List Device} (hd : device ∈ attachFirst record devices) :
    device ∈ devices ∨
      ∃ old ∈ devices, old.deviceId = record.deviceId ∧ device = old.attach record := by
  induction devices with
  | nil => exact Or.inl hd
  | cons d ds ih =>
  unfold attachFirst at hd
  by_cases hid : d.deviceId = record.deviceId
  · rw [if_pos hid] at hd
    rcases mem_cons.mp hd with rfl | hd
    · exact Or.inr ⟨d, mem_cons_self, hid, rfl⟩
    · exact Or.inl (mem_cons_of_mem d hd)
  rw [if_neg hid] at hd
  rcases mem_cons.mp hd with rfl | hd
  · exact Or.inl mem_cons_self
  rcases ih hd with h | ⟨old, hold, h⟩
  · exact Or.inl (mem_cons_of_mem d h)
  · exact Or.inr ⟨old, mem_cons_of_mem d hold, h⟩

theorem Device.attach_deviceId (device : Device) (record : MountRecord) :
    (device.attach record).deviceId = device.deviceId := by
  unfold Device.attach
  split_ifs <;> rfl

theorem Device.attach_mountPath (device : Device) (record : MountRecord) :
    (device.attach record).mountPath = record.mountPath ∨
      (device.attach record).mountPath = device.mountPath := by
  unfold Device.attach
  split_ifs
  · exact Or.inl rfl
  · exact Or.inr rfl

variable {cat : Catalog}

theorem syntheticDevice_eq_some (hs : syntheticDevice cat record = some device) :
    device.deviceId = record.deviceId ∧ device.mountPath = [] := by
  unfold syntheticDevice at hs
  split_ifs at hs
  obtain ⟨aliasName, -, rfl⟩ := map_eq_some_iff.mp hs
  exact ⟨rfl, rfl⟩

variable {records : List MountRecord}

theorem MountedFrom.add (hm : MountedFrom records cat) (hr : record ∈ records) :
    MountedFrom records (addMountDevice cat record) := by
  have hattach : ∀ old : Device, old.deviceId = record.deviceId →
      (old.mountPath = [] ∨ ∃ r ∈ records, r.deviceId = old.deviceId ∧
        old.mountPath = r.mountPath) →
      ((old.attach record).mountPath = [] ∨ ∃ r ∈ records,
        r.deviceId = (old.attach record).deviceId ∧
          (old.attach record).mountPath = r.mountPath) := by
    intro old hid hold
    rw [old.attach_deviceId]
    rcases old.attach_mountPath record with h | h
    · exact Or.inr ⟨record, hr, hid.symm, h⟩
    · rw [h]
      exact hold
  intro device hd
  unfold addMountDevice at hd
  split at hd
  · rcases mem_attachFirst hd with h | ⟨old, hold, hid, rfl⟩
    · exact hm device h
    · exact hattach old hid (hm old hold)
  split at hd
  · exact hm device hd
  rename_i fresh hfresh
  obtain ⟨hid, hempty⟩ := syntheticDevice_eq_some hfresh
  rcases mem_append.mp hd with h | h
  · exact hm device h
  · obtain rfl := mem_singleton.mp h
    exact hattach fresh hid (Or.inl hempty)

variable {host : Host}

/-- **Mounted once.** If no two records are of one file system, a device that discovery has given
a mount point has that of its record. -/
theorem discoverMounts_mountPath (hinfo : host.mountinfo = some records)
    (honce : ∀ r ∈ records, ∀ r' ∈ records, r.deviceId = r'.deviceId → r = r')
    (hnew : ∀ device ∈ cat.devices, device.mountPath = []) (hr : record ∈ records)
    (hd : (discoverMounts host cat).deviceForId record.deviceId = some device) :
    device.mountPath = [] ∨ device.mountPath = record.mountPath := by
  have hm : MountedFrom records (discoverMounts host cat) := by
    unfold discoverMounts
    rw [hinfo]
    exact foldlRecOn records _ (fun d hd => Or.inl (hnew d hd)) fun _ hm _ hr => hm.add hr
  have hid : device.deviceId = record.deviceId := by
    simpa using find?_some hd
  rcases hm device (mem_of_find?_eq_some hd) with h | ⟨r, hmem, hrid, hpath⟩
  · exact Or.inl h
  · obtain rfl := honce r hmem record hr (hrid.trans hid)
    exact Or.inr hpath

/-! ## Every record's device is mounted -/

theorem Device.attach_ne_nil (device : Device) (hr : record.mountPath ≠ [])
    : (device.attach record).mountPath ≠ [] := by
  unfold Device.attach
  by_cases hc : device.mountPath = [] ∨ record.mountPath.length < device.mountPath.length
  · rw [if_pos hc]
    exact hr
  · rw [if_neg hc]
    exact fun he => hc (Or.inl he)

theorem find?_attachFirst (record : MountRecord) (devices : List Device) (k : ℕ) :
    (attachFirst record devices).find? (·.deviceId == k) =
      if k = record.deviceId then (devices.find? (·.deviceId == k)).map (·.attach record)
      else devices.find? (·.deviceId == k) := by
  induction devices with
  | nil => simp [attachFirst]
  | cons d ds ih =>
  unfold attachFirst
  by_cases hid : d.deviceId = record.deviceId
  · rw [if_pos hid, find?_cons, find?_cons, d.attach_deviceId, hid]
    by_cases hk : k = record.deviceId
    · rw [hk]
      simp
    · rw [if_neg hk]
      have : (record.deviceId == k) = false := by simpa using fun he => hk he.symm
      rw [this]
  rw [if_neg hid, find?_cons, find?_cons, ih]
  by_cases hk : k = record.deviceId
  · have : (d.deviceId == k) = false := by
      rw [hk]
      simpa using hid
    rw [this]
  · rw [if_neg hk, if_neg hk]

def MountedId (cat : Catalog) (k : ℕ) : Prop :=
  ∀ device, cat.deviceForId k = some device → device.mountPath ≠ []

/-- The step: a record mounts its own device and unmounts none. A device that is missing stays
missing unless the record is its own. -/
theorem MountedId.add {k : ℕ} (hr : record.mountPath ≠ [])
    (hk : k = record.deviceId ∨ MountedId cat k) : MountedId (addMountDevice cat record) k := by
  intro device hd
  unfold addMountDevice at hd
  split at hd
  · next old hold =>
    unfold Catalog.deviceForId at hd
    rw [find?_attachFirst] at hd
    by_cases hkr : k = record.deviceId
    · rw [if_pos hkr] at hd
      obtain ⟨d, -, rfl⟩ := map_eq_some_iff.mp hd
      exact d.attach_ne_nil hr
    · rw [if_neg hkr] at hd
      exact (hk.resolve_left hkr) device hd
  next hnone =>
  split at hd
  · rcases hk with rfl | hk
    · rw [hnone] at hd
      simp at hd
    · exact hk device hd
  rename_i fresh hfresh
  unfold Catalog.deviceForId at hd
  simp only [find?_append] at hd
  cases hold : cat.devices.find? (·.deviceId == k) with
  | some old =>
    rw [hold] at hd
    obtain rfl := some.inj hd
    rcases hk with rfl | hk
    · rw [Catalog.deviceForId, hold] at hnone
      simp at hnone
    · exact hk old hold
  | none =>
    rw [hold, none_or] at hd
    obtain rfl := mem_singleton.mp (mem_of_find?_eq_some hd)
    exact fresh.attach_ne_nil hr

theorem MountedId.foldl :
    ∀ {cat : Catalog} {k : ℕ}, (∀ r ∈ records, r.mountPath ≠ []) →
      (MountedId cat k ∨ ∃ r ∈ records, r.deviceId = k) →
      MountedId (records.foldl addMountDevice cat) k := by
  induction records with
  | nil =>
    intro cat k _ h
    rcases h with h | ⟨r, hr, -⟩
    · exact h
    · simp at hr
  | cons r rs ih =>
  intro cat k hne h
  refine ih (fun x hx => hne x (mem_cons_of_mem r hx)) ?_
  have hr := hne r mem_cons_self
  rcases h with h | ⟨x, hx, rfl⟩
  · exact Or.inl (MountedId.add hr (Or.inr h))
  rcases mem_cons.mp hx with rfl | hx
  · exact Or.inl (MountedId.add hr (Or.inl rfl))
  · exact Or.inr ⟨x, hx, rfl⟩

theorem discoverMounts_device (hinfo : host.mountinfo = some records)
    (honce : ∀ r ∈ records, ∀ r' ∈ records, r.deviceId = r'.deviceId → r = r')
    (hne : ∀ r ∈ records, r.mountPath ≠ []) (hnew : ∀ device ∈ cat.devices, device.mountPath = [])
    (hr : record ∈ records)
    (hd : (discoverMounts host cat).deviceForId record.deviceId = some device) :
    device.mountPath = record.mountPath := by
  have hmounted : MountedId (discoverMounts host cat) record.deviceId := by
    unfold discoverMounts
    rw [hinfo]
    exact MountedId.foldl hne (Or.inr ⟨record, hr, rfl⟩)
  exact (discoverMounts_mountPath hinfo honce hnew hr hd).resolve_left (hmounted device hd)

end AceShell
