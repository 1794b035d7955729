import AceShell.Paths.Alike
import AceShell.Paths.Mending

/-!
# What a resolution leaves for the next one

A resolution may bind late assigns, give a session its `CLIPS:` back and mount devices. None of this
is seen by another resolution: `PathState.settled` is the state with all of it done, a resolution
does not change it, and its result is the same in two states that settle to the same one
(`simulation_settled`).
-/

namespace AceShell

open Text List Function

variable {z : Zlib} {host : Host} {n : ℕ}

/-! ## Devices -/

section Remounted

def Remounts (g : Device → Device) : Prop := ∀ d, ∃ path, g d = { d with mountPath := path }

variable {g : Device → Device} (hg : Remounts g) (cat : Catalog)

def Catalog.remount (g : Device → Device) (cat : Catalog) : Catalog :=
  { cat with devices := cat.devices.map g }

include hg

theorem Remounts.viewPath (d : Device) : (g d).viewPath = d.viewPath := by
  obtain ⟨path, hd⟩ := hg d
  rw [hd]

theorem Remounts.deviceId (d : Device) : (g d).deviceId = d.deviceId := by
  obtain ⟨path, hd⟩ := hg d
  rw [hd]

theorem Remounts.aliasMatches (d : Device) (name : Name) :
    (g d).aliasMatches name = d.aliasMatches name := by
  obtain ⟨path, hd⟩ := hg d
  rw [hd]
  rfl

variable (path : Name)

theorem isFullRoot_remount :
    (cat.remount g).isFullRoot path = cat.isFullRoot path := by
  unfold Catalog.isFullRoot Catalog.remount
  rw [any_map]
  simp only [comp_def, hg.viewPath]

theorem lookup_remount (name : Name) : (cat.remount g).lookup name = cat.lookup name := by
  unfold Catalog.lookup Catalog.remount
  rw [countP_map]
  simp only [comp_def, hg.aliasMatches]

theorem deviceViewRoot_remount (name : Name) (n : ℕ) :
    (cat.remount g).deviceViewRoot name n = cat.deviceViewRoot name n := by
  unfold Catalog.deviceViewRoot Catalog.remount
  rw [find?_map]
  simp only [comp_def, hg.aliasMatches]
  cases cat.devices.find? (·.aliasMatches name) with
  | none => rfl
  | some d => simp only [Option.map_some, hg.viewPath]

theorem deviceForId_remount (deviceId : ℕ) :
    (cat.remount g).deviceForId deviceId = (cat.deviceForId deviceId).map g := by
  unfold Catalog.deviceForId Catalog.remount
  rw [find?_map]
  simp only [comp_def, hg.deviceId]

theorem betterMount_remount (canonical : Name) (best : Option (MountRecord × Device))
    (record : MountRecord) :
    betterMount (cat.remount g) canonical (best.map (Prod.map id g)) record =
      (betterMount cat canonical best record).map (Prod.map id g) := by
  unfold betterMount
  rw [deviceForId_remount hg]
  by_cases hbeneath : pathIsBeneath canonical record.mountPath = true
  · rw [if_pos hbeneath, if_pos hbeneath]
    cases cat.deviceForId record.deviceId with
    | none => rfl
    | some candidate =>
    have hlen : ((best.map (Prod.map id g)).map (·.1.mountPath.length)) =
        best.map (·.1.mountPath.length) := by
      cases best <;> rfl
    simp only [Option.map_some, hlen]
    split_ifs <;> rfl
  · rw [if_neg hbeneath, if_neg hbeneath]

theorem findMountForPath_remount (n : ℕ) :
    findMountForPath host (cat.remount g) path n =
      (findMountForPath host cat path n).map (Prod.map id (Prod.map id g)) := by
  unfold findMountForPath
  cases normalizeLexicalAbsolutePath path n with
  | error e => rfl
  | ok canonical =>
  cases host.mountinfo with
  | none => rfl
  | some records =>
  have hfold : records.foldl (betterMount (cat.remount g) canonical) none =
      (records.foldl (betterMount cat canonical) none).map (Prod.map id g) :=
    @foldl_hom _ _ _ (Option.map (Prod.map id g)) _ _ records none
      (betterMount_remount hg cat canonical)
  dsimp only
  rw [hfold]
  cases records.foldl (betterMount cat canonical) none <;> rfl

theorem volumeRootForPath_remount (n : ℕ) :
    volumeRootForPath host (cat.remount g) path n = volumeRootForPath host cat path n := by
  unfold volumeRootForPath
  cases normalizeLexicalAbsolutePath path pathMax with
  | error e => rfl
  | ok canonical =>
  dsimp only
  rw [findMountForPath_remount hg]
  have hfind : (cat.remount g).devices.find? (fun device =>
        device.viewPath != [] && pathIsBeneath canonical device.viewPath) =
      (cat.devices.find? fun device =>
        device.viewPath != [] && pathIsBeneath canonical device.viewPath).map g := by
    unfold Catalog.remount
    rw [find?_map]
    simp only [comp_def, hg.viewPath]
  rw [hfind]
  cases cat.devices.find? fun device =>
      device.viewPath != [] && pathIsBeneath canonical device.viewPath with
  | some device => simp only [Option.map_some, hg.viewPath]
  | none =>
    cases findMountForPath host cat canonical pathMax <;> rfl

theorem betterView_remount (canonical : Name) (best : Option Device) (device : Device) :
    betterView canonical (best.map g) (g device) = (betterView canonical best device).map g := by
  unfold betterView
  rw [hg.viewPath]
  split_ifs
  · cases best with
    | none => rfl
    | some old =>
      simp only [Option.map_some, hg.viewPath]
      split_ifs <;> rfl
  · rfl

theorem aliasOf_remount (d : Device) : (cat.remount g).aliasOf (g d) = cat.aliasOf d := by
  unfold Catalog.aliasOf
  simp only [lookup_remount hg]
  obtain ⟨path, hd⟩ := hg d
  rw [hd]

theorem nameFromPath_remount (n : ℕ) :
    nameFromPath host (cat.remount g) path n = nameFromPath host cat path n := by
  unfold nameFromPath
  cases normalizeLexicalAbsolutePath path pathMax with
  | error e => rfl
  | ok canonical =>
  have hview : (cat.remount g).devices.foldl (betterView canonical) none =
      (cat.devices.foldl (betterView canonical) none).map g :=
    foldl_map.trans
      (@foldl_hom _ _ _ (Option.map g) _ _ cat.devices none (betterView_remount hg canonical))
  dsimp only
  rw [findMountForPath_remount hg, hview]
  cases cat.devices.foldl (betterView canonical) none with
  | some device =>
    dsimp only [Option.map_some]
    rw [aliasOf_remount hg, hg.viewPath]
  | none =>
  dsimp only [Option.map_none]
  cases findMountForPath host cat canonical pathMax with
  | error e => rfl
  | ok found =>
  dsimp only [Except.map, Prod.map]
  rw [aliasOf_remount hg]
  rfl

theorem beneath_remount (base path : Name) (n : ℕ) :
    normalizeMappedPathBeneath z host (cat.remount g) base path n =
      normalizeMappedPathBeneath z host cat base path n := by
  have hloop (baseInfo : FileStat) (fuel : ℕ) (probe : Name) :
      withinBaseLoop host (cat.remount g) base baseInfo fuel probe =
        withinBaseLoop host cat base baseInfo fuel probe := by
    induction fuel generalizing probe with
    | zero => rfl
    | succ fuel ih =>
      unfold withinBaseLoop
      rw [isFullRoot_remount hg]
      simp only [ih]
  unfold normalizeMappedPathBeneath withinBaseFilesystem
  simp only [hloop]

theorem retryInView_remount (volumeName base relative : Name) (failure : Errno) (n : ℕ) :
    retryInView z host (cat.remount g) volumeName base relative failure n =
      retryInView z host cat volumeName base relative failure n := by
  unfold retryInView
  simp only [deviceViewRoot_remount hg, beneath_remount hg]

theorem volumeNameOf_remount (root : Name) :
    volumeNameOf host (cat.remount g) root = volumeNameOf host cat root := by
  unfold volumeNameOf
  rw [nameFromPath_remount hg]

theorem normalizeAmigaPath_remount (cwd path : Name) (n : ℕ) :
    normalizeAmigaPath z host (cat.remount g) cwd path n =
      normalizeAmigaPath z host cat cwd path n := by
  unfold normalizeAmigaPath
  simp only [volumeRootForPath_remount hg, beneath_remount hg, volumeNameOf_remount hg,
    retryInView_remount hg]

theorem resolveCurrentVolume_remount (session : Session) (input : Name) (n : ℕ) :
    resolveCurrentVolume z host ⟨session, cat.remount g⟩ input n =
      resolveCurrentVolume z host ⟨session, cat⟩ input n := by
  unfold resolveCurrentVolume
  simp only [volumeRootForPath_remount hg, beneath_remount hg, volumeNameOf_remount hg,
    retryInView_remount hg]

end Remounted

/-! ## Mounting -/

def Device.mounted (host : Host) (d : Device) : Device :=
  match ensureDeviceMount host d with
  | .ok device => device
  | .error _ => d

variable {device : Device}

theorem remounts_mounted : Remounts (Device.mounted host) := by
  intro d
  unfold Device.mounted
  cases hmount : ensureDeviceMount host d with
  | error e => exact ⟨d.mountPath, rfl⟩
  | ok device =>
    obtain ⟨path, hdevice, -⟩ := ensureDeviceMount_eq hmount
    exact ⟨path, hdevice⟩

theorem ensureDeviceMount_mounted (d : Device) :
    ensureDeviceMount host (d.mounted host) = ensureDeviceMount host d := by
  unfold Device.mounted
  cases hmount : ensureDeviceMount host d with
  | error e => exact hmount
  | ok device =>
    obtain ⟨path, -, hagain⟩ := ensureDeviceMount_eq hmount
    exact hagain

theorem mounted_mounted (d : Device) : (d.mounted host).mounted host = d.mounted host := by
  have hagain : ensureDeviceMount host (d.mounted host) = _ := ensureDeviceMount_mounted d
  unfold Device.mounted at hagain ⊢
  cases hmount : ensureDeviceMount host d with
  | error e =>
    rw [hmount]
  | ok device =>
    rw [hmount] at hagain
    rw [hagain]

def Catalog.settled (host : Host) (cat : Catalog) : Catalog :=
  if cat.deviceView then cat else cat.remount (Device.mounted host)

theorem settled_eq_remount (host : Host) (cat : Catalog) :
    ∃ g, Remounts g ∧ cat.settled host = cat.remount g := by
  unfold Catalog.settled
  split_ifs
  · refine ⟨id, fun d => ⟨d.mountPath, rfl⟩, ?_⟩
    unfold Catalog.remount
    rw [map_id]
  · exact ⟨_, remounts_mounted, rfl⟩

variable {cat : Catalog}

theorem root_of_view (hview : cat.deviceView = true) (name : Name) (n : ℕ) :
    (Catalog.root host cat name n).2 = cat := by
  unfold Catalog.root
  split_ifs
  · cases cat.devices.filter (·.aliasMatches name) with
    | nil => rfl
    | cons device rest =>
      cases rest with
      | nil =>
        dsimp only
        cases selectedViewRoot host device <;> rfl
      | cons other rest => rfl
  · rfl

variable {name : Name}

theorem settled_mount {mounted : Device} (hview : ¬ cat.deviceView = true)
    (hmatch : cat.devices.filter (·.aliasMatches name) = [device])
    (hmount : ensureDeviceMount host device = .ok mounted) :
    Catalog.settled host { cat with
      devices := cat.devices.map fun d => if d.aliasMatches name then mounted else d } =
      cat.settled host := by
  unfold Catalog.settled
  rw [if_neg hview, if_neg hview]
  unfold Catalog.remount
  rw [map_map]
  refine congrArg (fun devices => Catalog.mk devices cat.deviceView) ?_
  refine map_congr_left fun d hd => ?_
  have hmounted : device.mounted host = mounted := by
    unfold Device.mounted
    rw [hmount]
  by_cases hname : d.aliasMatches name = true
  · have hmem : d ∈ cat.devices.filter (·.aliasMatches name) := mem_filter.mpr ⟨hd, hname⟩
    rw [hmatch, mem_singleton] at hmem
    rw [comp_apply, if_pos hname, hmem, ← hmounted, mounted_mounted]
  · rw [comp_apply, if_neg hname]

theorem root_settled (host : Host) (cat : Catalog) (name : Name) (n : ℕ) :
    (Catalog.root host (cat.settled host) name n).1 = (Catalog.root host cat name n).1 ∧
      (Catalog.root host cat name n).2.settled host = cat.settled host := by
  by_cases hview : cat.deviceView = true
  · have hsame : cat.settled host = cat := if_pos hview
    rw [hsame, root_of_view hview]
    exact ⟨rfl, hsame⟩
  have hsettled : cat.settled host = cat.remount (Device.mounted host) := if_neg hview
  have hfilter : (cat.settled host).devices.filter (·.aliasMatches name) =
      (cat.devices.filter (·.aliasMatches name)).map (Device.mounted host) := by
    rw [hsettled]
    unfold Catalog.remount
    rw [filter_map]
    simp only [comp_def, remounts_mounted.aliasMatches]
  have hview' : ¬ (cat.settled host).deviceView = true := by
    rw [hsettled]
    exact hview
  unfold Catalog.root
  by_cases hvalid : validAlias name = true
  · rw [if_pos hvalid, if_pos hvalid, hfilter]
    cases hmatch : cat.devices.filter (·.aliasMatches name) with
    | nil => exact ⟨rfl, rfl⟩
    | cons device rest =>
    cases rest with
    | nil =>
      rw [map_cons, map_nil]
      dsimp only
      rw [if_neg hview, if_neg hview', ensureDeviceMount_mounted]
      cases hmount : ensureDeviceMount host device with
      | error e => exact ⟨rfl, rfl⟩
      | ok mounted => exact ⟨rfl, settled_mount hview hmatch hmount⟩
    | cons other rest => exact ⟨rfl, rfl⟩
  · rw [if_neg hvalid, if_neg hvalid]
    exact ⟨rfl, rfl⟩

/-! ## Sessions -/

def Assign.settled (entry : Assign) : Assign :=
  { entry with type := if entry.type = .late then .directory else entry.type }

def Session.bindAll (session : Session) : Session :=
  { session with assigns := session.assigns.map (Option.map Assign.settled) }

def Session.settled (host : Host) (session : Session) : Session :=
  session.bindAll.repairClips host clipsName

variable {index : ℕ}

section Sessions

variable (session : Session)

theorem findAssign_bindAll (name : Name) :
    session.bindAll.findAssign name = session.findAssign name := by
  unfold Session.findAssign Session.bindAll
  rw [findIdx?_map]
  congr 1
  funext slot
  cases slot <;> rfl

theorem entryAt_bindAll (index : ℕ) :
    session.bindAll.entryAt index = (session.entryAt index).map Assign.settled := by
  unfold Session.entryAt Session.bindAll
  rw [getElem?_map]
  rcases session.assigns[index]? with - | - | entry <;> rfl

theorem setSlot_bindAll (index : ℕ) (slot : Option Assign) :
    (session.setSlot index slot).bindAll =
      session.bindAll.setSlot index (slot.map Assign.settled) := by
  unfold Session.setSlot Session.bindAll
  rw [map_set]

theorem allocateAssign_bindAll (name : Name) :
    session.bindAll.allocateAssign name =
      (session.allocateAssign name).map (Prod.map id Session.bindAll) := by
  unfold Session.allocateAssign
  rw [findAssign_bindAll]
  cases session.findAssign name with
  | some index => rfl
  | none =>
  have hfree : session.bindAll.assigns.findIdx? (·.isNone) =
      session.assigns.findIdx? (·.isNone) := by
    unfold Session.bindAll
    rw [findIdx?_map]
    congr 1
    funext slot
    cases slot <;> rfl
  rw [hfree]
  cases session.assigns.findIdx? (·.isNone) with
  | none => rfl
  | some index =>
  split_ifs
  · rfl
  dsimp only [Option.map_some, Prod.map]
  rw [setSlot_bindAll]
  rfl

theorem setDirectoryAssign_bindAll (name path : Name) :
    session.bindAll.setDirectoryAssign host name path =
      (session.setDirectoryAssign host name path).bindAll := by
  unfold Session.setDirectoryAssign
  rw [allocateAssign_bindAll]
  by_cases hdir : host.isDirectory path = true
  · rw [if_pos hdir, if_pos hdir]
    cases session.allocateAssign name with
    | none => rfl
    | some found =>
    dsimp only [Option.map_some, Prod.map]
    by_cases hlong : pathMax ≤ path.length
    · rw [if_pos hlong, if_pos hlong]
    · rw [if_neg hlong, if_neg hlong, setSlot_bindAll, entryAt_bindAll, Option.map_map]
      rfl
  · rw [if_neg hdir, if_neg hdir]

theorem repairClips_bindAll (name : Name) :
    session.bindAll.repairClips host name = (session.repairClips host name).bindAll := by
  unfold Session.repairClips
  rw [findAssign_bindAll]
  split_ifs
  · cases host.clipboardRoot with
    | none => rfl
    | some root => exact setDirectoryAssign_bindAll session clipsName root
  · rfl

theorem findIdx?_set_of_eq {α : Type} {p : α → Bool} {l : List α} {i : ℕ} {x y : α}
    (hi : l[i]? = some x) (hp : p y = p x) : (l.set i y).findIdx? p = l.findIdx? p := by
  have hmap : (l.set i y).map p = l.map p := by
    have hsame : (l.map p)[i]? = some (p x) := by
      rw [getElem?_map, hi]
      rfl
    obtain ⟨hlt, hget⟩ := List.getElem?_eq_some_iff.mp hsame
    rw [List.map_set, hp, ← hget, List.set_getElem_self]
  have hfind (m : List α) : m.findIdx? p = (m.map p).findIdx? id := by
    rw [findIdx?_map]
    rfl
  rw [hfind, hfind, hmap]

theorem findAssign_ne_none {entry : Assign} (hent : session.assigns[index]? = some (some entry))
    (hname : caseEq entry.name name = true) : session.findAssign name ≠ none := by
  intro hnone
  unfold Session.findAssign at hnone
  rw [findIdx?_eq_none_iff] at hnone
  have hno := hnone _ (mem_of_getElem? hent)
  exact Bool.false_ne_true (hno.symm.trans hname)

theorem repairClips_eq (host : Host) (session : Session) :
    session.repairClips host clipsName = session ∨
      ∃ index entry, session.assigns[index]? = some none ∧ entry.name = clipsName ∧
        session.repairClips host clipsName = session.setSlot index (some entry) := by
  unfold Session.repairClips
  split_ifs with hlost
  · cases host.clipboardRoot with
    | none => exact .inl rfl
    | some root =>
      rcases setDirectoryAssign_eq host session clipsName root with
        heq | ⟨index, slot, entry, hslot, heq, hnone, hent⟩
      · exact .inl heq
      obtain rfl := hnone hlost.1
      refine .inr ⟨index, entry, hslot, ?_, heq⟩
      rcases hent with ⟨-, -, rfl⟩ | rfl <;> rfl
  · exact .inl rfl

theorem repairClips_repairClips :
    (session.repairClips host clipsName).repairClips host clipsName =
      session.repairClips host clipsName := by
  rcases repairClips_eq host session with hsame | ⟨index, entry, hfree, hname, heq⟩
  · rw [hsame, hsame]
  rw [heq]
  have hfound : (session.setSlot index (some entry)).findAssign clipsName ≠ none := by
    have hslot : (session.setSlot index (some entry)).assigns[index]? = some (some entry) :=
      List.getElem?_set_self (List.getElem?_eq_some_iff.mp hfree).1
    refine findAssign_ne_none _ hslot ?_
    rw [hname]
    exact caseEq_refl clipsName
  unfold Session.repairClips
  rw [if_neg fun hno => hfound hno.1]

theorem repairClips_of_caseEq (h : caseEq name clipsName = true) :
    session.repairClips host name = session.repairClips host clipsName := by
  unfold Session.repairClips
  rw [findAssign_congr h]
  simp only [h, caseEq_refl]

theorem repairClips_of_not_caseEq (h : ¬ caseEq name clipsName = true) :
    session.repairClips host name = session :=
  if_neg fun hno => h hno.2

/-! ### What settles to the same -/

theorem settled_eq_bindAll : session.settled host = (session.repairClips host clipsName).bindAll :=
  repairClips_bindAll session clipsName

theorem settled_repairClips (name : Name) :
    (session.repairClips host name).settled host = session.settled host := by
  by_cases hclips : caseEq name clipsName = true
  · rw [repairClips_of_caseEq session hclips]
    unfold Session.settled
    rw [← repairClips_bindAll, repairClips_repairClips]
  · rw [repairClips_of_not_caseEq session hclips]

theorem settled_bind (index : ℕ) :
    Session.settled host (match session.entryAt index with
      | some entry =>
        if entry.type = .late then
          session.setSlot index (some { entry with type := .directory })
        else session
      | none => session) = session.settled host := by
  cases hent : session.entryAt index with
  | none => rfl
  | some entry =>
  dsimp only
  by_cases hlate : entry.type = .late
  · rw [if_pos hlate]
    refine congrArg (fun s : Session => s.repairClips host clipsName) ?_
    rw [setSlot_bindAll]
    have hslot := getElem?_of_entryAt hent
    have hsame : session.bindAll.assigns[index]? = some (some entry.settled) := by
      unfold Session.bindAll
      rw [getElem?_map, hslot]
      rfl
    have hbound : Assign.settled { entry with type := .directory } = entry.settled := by
      unfold Assign.settled
      rw [hlate]
      rfl
    rw [Option.map_some, hbound]
    unfold Session.setSlot
    obtain ⟨hlt, hget⟩ := List.getElem?_eq_some_iff.mp hsame
    rw [← hget, List.set_getElem_self]
  · rw [if_neg hlate]

theorem findAssign_settled (name : Name) :
    (session.settled host).findAssign name = (session.repairClips host name).findAssign name := by
  rw [settled_eq_bindAll, findAssign_bindAll]
  by_cases hclips : caseEq name clipsName = true
  · rw [repairClips_of_caseEq session hclips]
  rw [repairClips_of_not_caseEq session hclips]
  rcases repairClips_eq host session with hsame | ⟨index, entry, hfree, hname, heq⟩
  · rw [hsame]
  rw [heq]
  have hother : slotNamed name (some entry) = false := by
    unfold slotNamed
    dsimp only
    rw [hname]
    refine Bool.eq_false_iff.mpr fun hno => hclips (caseEq_symm hno)
  exact findIdx?_set_of_eq hfree hother

theorem entryAt_settled (hfind : (session.repairClips host name).findAssign name = some index) :
    (session.settled host).entryAt index =
      ((session.repairClips host name).entryAt index).map Assign.settled := by
  rw [settled_eq_bindAll, entryAt_bindAll]
  by_cases hclips : caseEq name clipsName = true
  · rw [repairClips_of_caseEq session hclips]
  rw [repairClips_of_not_caseEq session hclips] at hfind ⊢
  rcases repairClips_eq host session with hsame | ⟨free, entry, hfree, -, heq⟩
  · rw [hsame]
  obtain ⟨found, hfound, -⟩ := entry_of_findAssign hfind
  have hne : free ≠ index := by
    rintro rfl
    have hslot := getElem?_of_entryAt hfound
    rw [hfree] at hslot
    exact nomatch hslot
  rw [heq, entryAt_setSlot _ hne]

end Sessions

/-! ## Resolutions -/

def PathState.settled (host : Host) (st : PathState) : PathState :=
  ⟨st.session.settled host, st.cat.settled host⟩

/-- Both states settle to `st`. -/
def SettleTo (host : Host) (st s s' : PathState) : Prop :=
  s.settled host = st ∧ s'.settled host = st

section Resolutions

variable {st st' : PathState}

section Settled

variable (h : st.settled host = st'.settled host)
include h

theorem settled_cwd : st.session.cwd = st'.session.cwd := by
  have hcwd (session : Session) : (session.settled host).cwd = session.cwd := by
    rw [settled_eq_bindAll]
    rcases repairClips_eq host session with hsame | ⟨_, _, -, -, heq⟩
    · rw [hsame]
      rfl
    · rw [heq]
      rfl
  have hsession := congrArg (fun s : PathState => s.session.cwd) h
  unfold PathState.settled at hsession
  simp only [hcwd] at hsession
  exact hsession

theorem eq_of_remount {α : Type} {f : Catalog → α}
    (hf : ∀ g cat, Remounts g → f (cat.remount g) = f cat) : f st.cat = f st'.cat := by
  have hsettled (cat : Catalog) : f (cat.settled host) = f cat := by
    obtain ⟨g, hg, heq⟩ := settled_eq_remount host cat
    rw [heq, hf g cat hg]
  rw [← hsettled, ← hsettled st'.cat]
  exact congrArg (fun s : PathState => f s.cat) h

theorem beneath_settled (base path : Name) (n : ℕ) :
    normalizeMappedPathBeneath z host st.cat base path n =
      normalizeMappedPathBeneath z host st'.cat base path n :=
  eq_of_remount h (f := fun cat => normalizeMappedPathBeneath z host cat base path n)
    fun _ cat hg => beneath_remount hg cat base path n

theorem retryInView_settled (volumeName base relative : Name) (failure : Errno) (n : ℕ) :
    retryInView z host st.cat volumeName base relative failure n =
      retryInView z host st'.cat volumeName base relative failure n :=
  eq_of_remount h (f := fun cat => retryInView z host cat volumeName base relative failure n)
    fun _ cat hg => retryInView_remount hg cat volumeName base relative failure n

theorem normalizeAmigaPath_settled (path : Name) (n : ℕ) :
    normalizeAmigaPath z host st.cat st.session.cwd path n =
      normalizeAmigaPath z host st'.cat st'.session.cwd path n := by
  rw [← settled_cwd h]
  exact eq_of_remount h (f := fun cat => normalizeAmigaPath z host cat st.session.cwd path n)
    fun _ cat hg => normalizeAmigaPath_remount hg cat st.session.cwd path n

theorem resolveCurrentVolume_settled (input : Name) (n : ℕ) :
    resolveCurrentVolume z host st input n = resolveCurrentVolume z host st' input n := by
  have hcat : resolveCurrentVolume z host ⟨st.session, st.cat⟩ input n =
      resolveCurrentVolume z host ⟨st.session, st'.cat⟩ input n :=
    eq_of_remount h (f := fun cat => resolveCurrentVolume z host ⟨st.session, cat⟩ input n)
      fun _ cat hg => resolveCurrentVolume_remount hg cat st.session input n
  refine hcat.trans ?_
  unfold resolveCurrentVolume
  rw [settled_cwd h]

end Settled

theorem resolveDevice_settled {st₀ : PathState} (h : SettleTo host st₀ st st') (name input : Name)
    (n : ℕ) :
    EndAlike (SettleTo host st₀) (some (resolveDevice z host st name input n))
      (some (resolveDevice z host st' name input n)) := by
  have hsettled : st.settled host = st'.settled host := h.1.trans h.2.symm
  have hcat : st.cat.settled host = st'.cat.settled host := congrArg PathState.cat hsettled
  have hroot : (Catalog.root host st.cat name pathMax).1 =
      (Catalog.root host st'.cat name pathMax).1 := by
    rw [← (root_settled host st.cat name pathMax).1, hcat,
      (root_settled host st'.cat name pathMax).1]
  have hleft := (root_settled host st.cat name pathMax).2
  have hright := (root_settled host st'.cat name pathMax).2
  unfold resolveDevice
  generalize Catalog.root host st.cat name pathMax = left at *
  generalize Catalog.root host st'.cat name pathMax = right at *
  obtain ⟨result, cat⟩ := left
  obtain ⟨result', cat'⟩ := right
  obtain rfl := hroot
  have hafter : SettleTo host st₀ { st with cat := cat } { st' with cat := cat' } :=
    ⟨(congrArg (PathState.mk (st.session.settled host)) hleft).trans h.1,
      (congrArg (PathState.mk (st'.session.settled host)) hright).trans h.2⟩
  have hsame : PathState.settled host { st with cat := cat } =
      PathState.settled host { st' with cat := cat' } := hafter.1.trans hafter.2.symm
  cases result with
  | error e => exact .some ⟨rfl, hafter⟩
  | ok base =>
  have hbeneath : normalizeMappedPathBeneath z host cat base (afterColon input) n =
      normalizeMappedPathBeneath z host cat' base (afterColon input) n := beneath_settled hsame ..
  dsimp only
  rw [← hbeneath]
  cases normalizeMappedPathBeneath z host cat base (afterColon input) n with
  | ok result => exact .some ⟨rfl, hafter⟩
  | error failure =>
  dsimp only
  by_cases hmissing : failure = .enoent
  · rw [if_pos hmissing, if_pos hmissing]
    exact .some ⟨retryInView_settled hsame .., hafter⟩
  · rw [if_neg hmissing, if_neg hmissing]
    exact .some ⟨rfl, hafter⟩

/-- **A resolution sees of a state only what it settles to, and does not change that.** -/
theorem simulation_settled (z : Zlib) (host : Host) (st₀ : PathState) :
    Simulation z host (SettleTo host st₀) (fun _ _ => True) fun _ => True where
  narrows _ _ := trivial
  links _ _ := trivial
  repair {st st'} name h :=
    ⟨(congrArg (PathState.mk · _) (settled_repairClips st.session name)).trans h.1,
      (congrArg (PathState.mk · _) (settled_repairClips st'.session name)).trans h.2⟩
  found {st st' name} h _ := by
    have hsess : st.session.settled host = st'.session.settled host :=
      congrArg PathState.session (h.1.trans h.2.symm)
    rw [← findAssign_settled, hsess, findAssign_settled]
  slot {st st' name index} h _ hindex := by
    refine ⟨trivial, ?_⟩
    intro entry entry' hfound hfound'
    have hsess : st.session.settled host = st'.session.settled host :=
      congrArg PathState.session (h.1.trans h.2.symm)
    have hidx' : (st'.session.repairClips host name).findAssign name = some index := by
      rw [← findAssign_settled, ← hsess, findAssign_settled, hindex]
    have hentry := entryAt_settled st.session hindex
    rw [hsess, entryAt_settled st'.session hidx', hfound, hfound', Option.map_some,
      Option.map_some, Option.some.injEq] at hentry
    -- the entries differ in their types only
    obtain ⟨-, hroot, htgts, -, hbacked⟩ := Assign.mk.inj hentry
    unfold Assign.texts
    exact ⟨hbacked, by rw [hroot, htgts]⟩
  bind {st st' index} _ h :=
    ⟨(congrArg (PathState.mk · _) (settled_bind st.session index)).trans h.1,
      (congrArg (PathState.mk · _) (settled_bind st'.session index)).trans h.2⟩
  lookup name h := eq_of_remount (h.1.trans h.2.symm) (f := fun cat => cat.lookup name)
    fun _ cat hg => lookup_remount hg cat name
  device name input n h := resolveDevice_settled h name input n
  beneath base path n h := beneath_settled (h.1.trans h.2.symm) base path n
  relative path n h := normalizeAmigaPath_settled (h.1.trans h.2.symm) path n
  volume input n h := resolveCurrentVolume_settled (h.1.trans h.2.symm) input n

end Resolutions

end AceShell
