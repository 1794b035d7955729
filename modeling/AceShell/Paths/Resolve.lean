import AceShell.Paths.Devices

/-!
# Resolving an AmigaDOS path

`resolvePath` and `resolveAssignTarget` call each other through the target texts of assigns, so
the model counts the calls: `none` is a resolution that has used up its fuel. A resolution may
change what it reads: it repairs a lost `CLIPS:`, binds a late assign and mounts a device.
-/

namespace AceShell

open Text

variable (z : Zlib) (host : Host)

/-! ## Sessions -/

/-- `MAX_NAME`. -/
def maxName : ℕ := 64

/-- `MAX_ASSIGNS`. -/
def maxAssigns : ℕ := 64

/-- `MAX_ASSIGN_TARGETS`. -/
def maxAssignTargets : ℕ := 16

/-- The types of an assign; a slot that was only allocated has none yet. -/
inductive AssignType
  | unset | directory | late | nonbinding
  deriving DecidableEq

/-- `struct assign_entry`. -/
structure Assign where
  name : Name
  root : Name
  targets : List Name
  type : AssignType
  hostBacked : Bool
  deriving DecidableEq

structure Session where
  cwd : Name
  assigns : List (Option Assign)

structure PathState where
  session : Session
  cat : Catalog

def slotNamed (name : Name) (slot : Option Assign) : Bool :=
  match slot with
  | none => false
  | some entry => caseEq entry.name name

variable (session : Session)

def Session.findAssign (name : Name) : Option ℕ :=
  session.assigns.findIdx? (slotNamed name)

/-- The entry in a slot. -/
def Session.entryAt (index : ℕ) : Option Assign :=
  (session.assigns[index]?).join

/-- Overwrite a slot. -/
def Session.setSlot (index : ℕ) (slot : Option Assign) : Session :=
  { session with assigns := session.assigns.set index slot }

def Assign.fresh (name : Name) : Assign := ⟨name, [], [], .unset, false⟩

def Session.allocateAssign (name : Name) : Option (ℕ × Session) :=
  match session.findAssign name with
  | some index => some (index, session)
  | none =>
    match session.assigns.findIdx? (·.isNone) with
    | none => none
    | some index =>
      if maxName ≤ name.length then none
      else some (index, session.setSlot index (some (.fresh name)))

/-- `is_directory`. -/
def Host.isDirectory (path : Name) : Bool :=
  path != [] &&
    match host.stat path with
    | .ok info => info.kind == .directory
    | .error _ => false

/-- `set_directory_assign`. -/
def Session.setDirectoryAssign (name path : Name) : Session :=
  if host.isDirectory path then
    match session.allocateAssign name with
    | none => session
    | some (index, session) =>
      if pathMax ≤ path.length then session
      else
        session.setSlot index
          (some ⟨((session.entryAt index).map Assign.name).getD name, path, [path], .directory,
            true⟩)
  else session

/-! ## Relative paths -/

/-- `pop_host_component`. -/
def popHostComponent (path : Name) : Name :=
  if path = rootPath then path else (trimLast path).getD rootPath

/-- The loop of `normalize_amiga_path`. An empty text is a second slash in a row and walks up,
unless it follows the last one. -/
def walkAmiga (resultSize : ℕ) : Name → List Name → Except Errno Name
  | result, [] => .ok result
  | result, segment :: rest =>
    if segment = [] then
      if rest = [] then .ok result else walkAmiga resultSize (popHostComponent result) rest
    else if pathMax ≤ segment.length then .error .enametoolong
    else
      match normalizeMappedPath z host result segment resultSize with
      | .error e => .error e
      | .ok result' => walkAmiga resultSize result' rest

/-- What `normalize_amiga_path` has built before it looks for the volume root. -/
def amigaWalk (cwd path : Name) (resultSize : ℕ) : Except Errno Name :=
  if resultSize ≤ cwd.length then .error .enametoolong
  else
    let slashes := (path.takeWhile (· == slash)).length
    walkAmiga z host resultSize (popHostComponent^[slashes] cwd)
      ((path.dropWhile (· == slash)).splitOn slash)

def retryInView (cat : Catalog) (volumeName base relative : Name) (failure : Errno)
    (resultSize : ℕ) : Except Errno Name :=
  match cat.deviceViewRoot volumeName pathMax with
  | .error _ => .error failure
  | .ok covered =>
    if covered = base then .error failure
    else normalizeMappedPathBeneath z host cat covered relative resultSize

/-- The volume name `ace_dos_devices_name_from_path` gives a root, up to its colon. -/
def volumeNameOf (cat : Catalog) (root : Name) : Option Name :=
  match nameFromPath host cat root pathMax with
  | .error _ => none
  | .ok text => if colon ∈ text then some (text.takeWhile (· != colon)) else none

/-- `normalize_amiga_path`. The path that was built is put through the decoder a second time,
against the root of the volume. -/
def normalizeAmigaPath (cat : Catalog) (cwd path : Name) (resultSize : ℕ) : Except Errno Name :=
  match amigaWalk z host cwd path resultSize with
  | .error e => .error e
  | .ok result =>
    match volumeRootForPath host cat cwd pathMax with
    | .error _ => .ok result
    | .ok floor =>
      match normalizeMappedPathBeneath z host cat floor result resultSize with
      | .ok result' => .ok result'
      | .error failure =>
        if failure = .enoent then
          match volumeNameOf host cat floor, normalizeMappedPath z host floor result resultSize with
          | some volumeName, .ok walked =>
            retryInView z host cat volumeName floor
              ((walked.drop floor.length).dropWhile (· == slash)) failure resultSize
          | _, _ => .error failure
        else .error failure

/-! ## Assigns -/

abbrev Resolver := PathState → Name → Option (Except Errno Name × PathState)

/-- The loop of `resolve_assign_target` over the targets of the entry in slot `index`. A target
that does not resolve, or resolves to nothing, is passed over. -/
def tryTargets (resolve : Resolver) (index : ℕ) (hostBacked : Bool) (resultSize : ℕ) :
    List Name → PathState → Option (Except Errno Name × PathState)
  | [], st => some (.error .enoent, st)
  | target :: rest, st =>
    if hostBacked ∧ pathMax ≤ target.length then some (.error .enametoolong, st) else
    let attempt : Option (Except Errno Name × PathState) :=
      if hostBacked then some (.ok target, st) else resolve st target
    match attempt with
    | none => none
    | some (.error _, st) => tryTargets resolve index hostBacked resultSize rest st
    | some (.ok candidate, st) =>
      if host.access candidate then
        if resultSize ≤ candidate.length then some (.error .enametoolong, st)
        else
          -- a late assign is bound by its first use
          let session := match st.session.entryAt index with
            | some entry =>
              if entry.type = .late then
                st.session.setSlot index (some { entry with type := .directory })
              else st.session
            | none => st.session
          some (.ok candidate, { st with session := session })
      else tryTargets resolve index hostBacked resultSize rest st

/-- `resolve_assign_target`. -/
def resolveAssignTarget (resolve : Resolver) (index : ℕ) (entry : Assign) (resultSize : ℕ)
    (st : PathState) : Option (Except Errno Name × PathState) :=
  tryTargets host resolve index entry.hostBacked resultSize
    (if entry.targets = [] then [entry.root] else entry.targets) st

/-! ## Volumes -/

def afterColon (input : Name) : Name :=
  ((input.dropWhile (· != colon)).drop 1).dropWhile (· == slash)

def resolveCurrentVolume (st : PathState) (input : Name) (resultSize : ℕ) : Except Errno Name :=
  match volumeRootForPath host st.cat st.session.cwd pathMax with
  | .error e => .error e
  | .ok base =>
    match normalizeMappedPathBeneath z host st.cat base (afterColon input) resultSize with
    | .ok result => .ok result
    | .error failure =>
      if failure = .enoent then
        match volumeNameOf host st.cat base with
        | some volumeName =>
          retryInView z host st.cat volumeName base (afterColon input) failure resultSize
        | none => .error failure
      else .error failure

def resolveDevice (st : PathState) (name input : Name) (resultSize : ℕ) :
    Except Errno Name × PathState :=
  match Catalog.root host st.cat name pathMax with
  | (.error e, cat) => (.error e, { st with cat := cat })
  | (.ok base, cat) =>
    let st := { st with cat := cat }
    match normalizeMappedPathBeneath z host cat base (afterColon input) resultSize with
    | .ok result => (.ok result, st)
    | .error failure =>
      if failure = .enoent then
        (retryInView z host cat name base (afterColon input) failure resultSize, st)
      else (.error failure, st)

/-! ## Clipboard units -/

def clipsName : Name := ascii "CLIPS"

/-- The lazy repair: a session that has lost its `CLIPS:` gets it back. -/
def Session.repairClips (name : Name) : Session :=
  if session.findAssign name = none ∧ caseEq name clipsName then
    match host.clipboardRoot with
    | none => session
    | some root => session.setDirectoryAssign host clipsName root
  else session

def isSpace (c : UInt8) : Bool := c == 32 || (decide (9 ≤ c) && decide (c ≤ 13))

/-- The value `strtoul(text, &end, 10)` gives a text it reads to the end; `none` when it stops early
or sets `errno`. -/
def parseUnit (text : Name) : Option ℕ :=
  let body := text.dropWhile isSpace
  let negative := body.head? == some 45
  let digits := if negative || body.head? == some 43 then body.drop 1 else body
  if digits ≠ [] ∧ digits.all (fun c => decide (48 ≤ c) && decide (c ≤ 57)) then
    let value := digits.foldl (fun acc c => acc * 10 + (c.toNat - 48)) 0
    if 2 ^ 64 ≤ value then none
    else some (if negative then (2 ^ 64 - value) % 2 ^ 64 else value)
  else none

def decimal (n : ℕ) : Name := (Nat.digits 10 n).reverse.map fun d => UInt8.ofNat (d + 48)

def clipsComponent (name relative : Name) : Name :=
  if caseEq name clipsName ∧ relative ≠ [] then
    match parseUnit relative with
    | some unit =>
      if unit < 256 then ascii "clip" ++ (if unit = 0 then [48] else decimal unit) else relative
    | none => relative
  else relative

/-! ## The resolver -/

/-- A path whose colon follows a name that fits: an assign, a device, or neither. -/
def resolveNamed (resolve : Resolver) (st : PathState) (name input : Name) (resultSize : ℕ) :
    Option (Except Errno Name × PathState) :=
  let st := { st with session := st.session.repairClips host name }
  match st.session.findAssign name with
  | some index =>
    match st.session.entryAt index with
    | none => some (.error .enodev, st)
    | some entry =>
      match resolveAssignTarget host resolve index entry pathMax st with
      | none => none
      | some (.error e, st) => some (.error e, st)
      | some (.ok base, st) =>
        some (normalizeMappedPathBeneath z host st.cat base
          (clipsComponent name (afterColon input)) resultSize, st)
  | none =>
    match st.cat.lookup name with
    | .unique => some (resolveDevice z host st name input resultSize)
    | .ambiguous => some (.error .eexist, st)
    | .unknown =>
      if slash ∈ name then
        some (normalizeAmigaPath z host st.cat st.session.cwd input resultSize, st)
      else some (.error .enodev, st)

def resolvePath (resultSize : ℕ) : ℕ → Resolver
  | 0, _, _ => none
  | fuel + 1, st, input =>
    if input.head? = some colon then
      some (resolveCurrentVolume z host st input resultSize, st)
    else if colon ∈ input ∧ (input.takeWhile (· != colon)).length < maxName then
      resolveNamed z host (resolvePath pathMax fuel) st (input.takeWhile (· != colon)) input
        resultSize
    else some (normalizeAmigaPath z host st.cat st.session.cwd input resultSize, st)

end AceShell
