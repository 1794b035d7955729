import AceShell.Shell.Session

/-!
# Variables as scoped maps

The variable requests answer as a map for each session and one shared map would, keyed by the name
in lower case and the type (`variables_scoped`). While no key is held by two slots, a table is a map
(`setVar_answers` and its siblings); a session that the broker does not hold starts with an empty
one, in the place of another session when there is no free slot (`getSession_scopes`).
-/

namespace AceShell

open Text SlotTable List Function Option

/-! ## The maps -/

abbrev VarKey := Name × VarType

/-- The key of a name. -/
def varKey (name : Name) (type : VarType) : VarKey := (name.map toLower, type)

/-- The key of a binding. -/
def Variable.key (entry : Variable) : VarKey := varKey entry.name entry.type

/-- A map of variables. -/
abbrev Scope := VarKey → Option Variable

namespace Scope

/-- How many keys the map has. -/
noncomputable def count (scope : Scope) : ℕ := {key | scope key ≠ none}.ncard

/-- The binding that flags and a name lead to, and whether it is the global one. Without flags a
local binding hides the global one. -/
def reach (inLocal inGlobal : Scope) (name : Name) (flags : UInt32) : Option (Bool × Variable) :=
  let key := varKey name (.ofFlags flags)
  match hasFlag flags varLocal, hasFlag flags varGlobal with
  | true, true => none
  | true, false => (inLocal key).map (false, ·)
  | false, true => (inGlobal key).map (true, ·)
  | false, false => ((inLocal key).map (false, ·)).or ((inGlobal key).map (true, ·))

/-- Bind a name, under the spelling it is bound under already. -/
def bind (scope : Scope) (name : Name) (type : VarType) (value : Name) : Scope :=
  let key := varKey name type
  update scope key (some ⟨((scope key).map Variable.name).getD name, value, type⟩)

def Lists (scope : Scope) (flags : UInt32) (entries : List Variable) : Prop :=
  entries.Nodup ∧ ∀ entry, entry ∈ entries ↔
    scope entry.key = some entry ∧ entry.listed flags = true

def listing (entries : List Variable) : Name := (entries.map Variable.line).flatten

end Scope

/-- The answer of the maps to a request, and the maps after it. The order of a listing is left
open. -/
def Answers (inLocal inGlobal : Scope) :
    VarRequest → Reply → Scope → Scope → Prop
  | .getVar path flags, reply, inLocal', inGlobal' =>
    inLocal' = inLocal ∧ inGlobal' = inGlobal ∧
      reply = match Scope.reach inLocal inGlobal path flags with
        | none => .fail .enoent
        | some (_, entry) => ⟨none, entry.value⟩
  | .setVar path value flags, reply, inLocal', inGlobal' =>
    let type := VarType.ofFlags flags
    let scope := if hasFlag flags varGlobal then inGlobal else inLocal
    let refusal := (checkSetVar path value flags).or
      (open scoped Classical in
        if scope (varKey path type) = none ∧ maxVars ≤ scope.count then some .enospc else none)
    match refusal with
    | some e => reply = .fail e ∧ inLocal' = inLocal ∧ inGlobal' = inGlobal
    | none =>
      reply = .ok ∧
        if hasFlag flags varGlobal then
          inLocal' = inLocal ∧ inGlobal' = inGlobal.bind path type value
        else inLocal' = inLocal.bind path type value ∧ inGlobal' = inGlobal
  | .delVar path flags, reply, inLocal', inGlobal' =>
    if hasFlag flags varSave then
      reply = .fail .enotsup ∧ inLocal' = inLocal ∧ inGlobal' = inGlobal
    else
      match Scope.reach inLocal inGlobal path flags with
      | none => reply = .fail .enoent ∧ inLocal' = inLocal ∧ inGlobal' = inGlobal
      | some (global, entry) =>
        reply = .ok ∧
          if global then
            inLocal' = inLocal ∧ inGlobal' = update inGlobal entry.key none
          else inLocal' = update inLocal entry.key none ∧ inGlobal' = inGlobal
  | .listVars flags, reply, inLocal', inGlobal' =>
    inLocal' = inLocal ∧ inGlobal' = inGlobal ∧
      ∃ own shared : List Variable,
        (if hasFlag flags varLocal ∨ ¬ hasFlag flags varGlobal then inLocal.Lists flags own
          else own = []) ∧
        (if hasFlag flags varGlobal then inGlobal.Lists flags shared else shared = []) ∧
        reply = if maxListResult ≤ (Scope.listing (own ++ shared)).length then .fail .eoverflow
          else ⟨none, Scope.listing (own ++ shared)⟩

structure Scopes where
  sessions : Name → Option Scope
  globals : Scope

/-- No session, and nothing bound. -/
def Scopes.empty : Scopes := ⟨fun _ => none, fun _ => none⟩

/-- How many sessions are held. -/
noncomputable def Scopes.held (a : Scopes) : ℕ := {id | a.sessions id ≠ none}.ncard

inductive Scopes.Step (a : Scopes) (id : Name) (request : VarRequest) (reply : Reply) :
    Scopes → Prop
  /-- The id does not fit. -/
  | refused (hlong : sessionIdSize ≤ id.length) (hreply : reply = .fail .enospc) :
    Step a id request reply a
  /-- A session that is held. -/
  | known {own own' globals' : Scope} (hheld : a.sessions id = some own)
    (h : Answers own a.globals request reply own' globals') :
    Step a id request reply ⟨update a.sessions id (some own'), globals'⟩
  /-- A session that is not, while there is room for it. -/
  | fresh {own' globals' : Scope} (hnew : a.sessions id = none) (hroom : a.held < maxSessions)
    (h : Answers (fun _ => none) a.globals request reply own' globals') :
    Step a id request reply ⟨update a.sessions id (some own'), globals'⟩
  /-- When there is no room, another session loses its map. -/
  | reclaimed {own' globals' : Scope} (other : Name) (hnew : a.sessions id = none)
    (hfull : a.held = maxSessions) (hother : a.sessions other ≠ none)
    (h : Answers (fun _ => none) a.globals request reply own' globals') :
    Step a id request reply
      ⟨update (update a.sessions other none) id (some own'), globals'⟩

/-! ## A table as a map -/

/-- The map of a table. -/
def VarTable.scope (table : VarTable) : Scope := lookup Variable.key table

structure VarTable.Sound (table : VarTable) : Prop where
  keyed : Keyed Variable.key table
  length : table.length = maxVars

theorem VarTable.sound_cleared : VarTable.cleared.Sound := ⟨keyed_replicate _ _, length_replicate⟩

theorem VarTable.scope_cleared : VarTable.cleared.scope = fun _ => none := by
  funext key
  exact lookup_replicate _ _ key

section Table

variable {table : VarTable} {name path value : Name} {type : VarType} {flags : UInt32}

theorem VarTable.Sound.count_eq (h : table.Sound) : table.scope.count = (live table).length :=
  h.keyed.ncard_keys

theorem VarTable.Sound.count_le (h : table.Sound) : table.scope.count ≤ maxVars := by
  rw [h.count_eq, ← h.length]
  exact live_length_le table

theorem key_eq_iff (entry : Variable) :
    (caseEq entry.name name && entry.type == type) = true ↔ entry.key = varKey name type := by
  rw [Bool.and_eq_true, caseEq_iff, beq_iff_eq]
  exact Prod.mk.injEq .. ▸ Iff.rfl

theorem findVariable_scope (h : table.Sound) (name : Name) (type : VarType) :
    match findVariable table name type with
    | some index => ∃ entry, table[index]? = some (some entry) ∧
        table.scope (varKey name type) = some entry
    | none => table.scope (varKey name type) = none :=
  slot_of_lookup h.keyed fun entry => key_eq_iff entry

theorem VarTable.Sound.set_some (h : table.Sound) {index : ℕ} {entry entry' : Variable}
    (hent : table[index]? = some (some entry)) (hkey : entry'.key = entry.key) :
    VarTable.Sound (table.set index (some entry')) :=
  ⟨h.keyed.set hent hkey, length_set.trans h.length⟩

theorem VarTable.Sound.release (h : table.Sound) (index : ℕ) :
    VarTable.Sound (release index table) :=
  ⟨h.keyed.release index, length_set.trans h.length⟩

/-- **Binding a variable.** `allocate_variable` and the copy of the value bind the name in the map,
unless it is not bound and the table is full. -/
theorem allocateVariable_scope (h : table.Sound) (hname : path ≠ [])
    (hshort : path.length < maxName) (type : VarType) (value : Name) :
    match allocateVariable table path type with
    | none => table.scope (varKey path type) = none ∧ maxVars ≤ table.scope.count
    | some (index, allocated) =>
      ¬ (table.scope (varKey path type) = none ∧ maxVars ≤ table.scope.count) ∧
        VarTable.Sound (allocated.modify index (Option.map ({ · with value := value }))) ∧
        VarTable.scope (allocated.modify index (Option.map ({ · with value := value }))) =
          table.scope.bind path type value := by
  have hfind := findVariable_scope h path type
  unfold allocateVariable
  cases hslot : findVariable table path type with
  | some index =>
    rw [hslot] at hfind
    obtain ⟨entry, hent, hscope⟩ := hfind
    have hkey : entry.key = varKey path type := key_of_lookup hscope
    have htype : entry.type = type := congrArg Prod.snd hkey
    have hset := modify_eq_set hent (Option.map ({ · with value := value }))
    refine ⟨fun hfull => by simp [hscope] at hfull, ?_, ?_⟩
    · rw [hset]
      exact h.set_some hent rfl
    rw [hset]
    have hbound := h.keyed.lookup_set hent (y := { entry with value := value }) rfl
    refine hbound.trans ?_
    unfold Scope.bind
    simp only [hscope, hkey, htype, map_some, getD_some]
    rfl
  | none =>
  rw [hslot] at hfind
  cases hfree : table.findIdx? (·.isNone) with
  | none =>
    refine ⟨hfind, ?_⟩
    rw [h.count_eq, findIdx?_isNone_eq_none.mp hfree, h.length]
  | some index =>
  simp only [if_neg (Nat.not_le.mpr hshort), if_neg hname]
  have hlt : index < table.length := (findIdx?_eq_some_iff_getElem.mp hfree).1
  have hent : (table.set index (some ⟨path, [], type⟩))[index]? =
      some (some ⟨path, [], type⟩) := getElem?_set_self hlt
  rw [modify_eq_set hent, set_set]
  have hplace : place (⟨path, value, type⟩ : Variable) table =
      some (table.set index (some ⟨path, value, type⟩)) := by
    unfold place
    rw [hfree]
    rfl
  refine ⟨fun hfull => ?_, ⟨h.keyed.place hplace hfind, length_set.trans h.length⟩, ?_⟩
  · rw [h.count_eq, ← h.length] at hfull
    have hall := Nat.le_antisymm (live_length_le table) hfull.2
    rw [findIdx?_isNone_eq_none.mpr hall] at hfree
    cases hfree
  · refine (h.keyed.lookup_place hplace hfind).trans ?_
    unfold Scope.bind
    simp only [hfind]
    rfl

theorem appendVariableList_eq (flags : UInt32) (table : VarTable) {result : Name}
    (hfits : result.length < maxListResult) :
    appendVariableList flags table result =
      let text := result ++ Scope.listing ((live table).filter (Variable.listed flags))
      if maxListResult ≤ text.length then none else some text := by
  induction table generalizing result with
  | nil => simp [appendVariableList, live, Scope.listing, Nat.not_le.mpr hfits]
  | cons slot slots ih =>
  cases slot with
  | none => exact ih hfits
  | some entry =>
  have hlive : live (some entry :: slots) = entry :: live slots := reduceOption_cons_of_some _ _
  unfold appendVariableList
  by_cases hlisted : entry.listed flags = true
  · rw [if_pos hlisted, hlive, filter_cons_of_pos hlisted]
    by_cases hline : maxListResult ≤ result.length + entry.line.length
    · rw [if_pos hline, if_pos]
      simp only [Scope.listing, map_cons, flatten_cons, length_append]
      omega
    · rw [if_neg hline, ih (by rw [length_append]; omega)]
      simp [Scope.listing]
  · rw [if_neg hlisted, hlive, filter_cons_of_neg hlisted]
    exact ih hfits

theorem VarTable.Sound.lists (h : table.Sound) (flags : UInt32) :
    table.scope.Lists flags ((live table).filter (Variable.listed flags)) := by
  refine ⟨h.keyed.of_map.filter _, fun entry => ?_⟩
  rw [mem_filter]
  exact and_congr_left fun _ =>
    ⟨h.keyed.lookup_mem, fun hent => mem_of_lookup hent⟩

end Table

/-! ## The requests -/

/-- Both tables are sound. -/
structure Vars.Sound (vars : Vars) : Prop where
  own : vars.localVars.Sound
  shared : vars.globalVars.Sound

variable {vars : Vars}

theorem Vars.Sound.table (h : vars.Sound) (global : Bool) : (vars.table global).Sound := by
  cases global
  · exact h.own
  · exact h.shared

theorem Vars.Sound.withTable (h : vars.Sound) (global : Bool) {table : VarTable}
    (htable : table.Sound) : (vars.withTable global table).Sound := by
  cases global
  · exact ⟨htable, h.shared⟩
  · exact ⟨h.own, htable⟩

def VarRequest.Named : VarRequest → Prop
  | .getVar path _ | .setVar path _ _ | .delVar path _ => path ≠ []
  | .listVars _ => True

instance : DecidablePred VarRequest.Named := fun request => by
  cases request <;> (unfold VarRequest.Named; infer_instance)

variable {request : VarRequest}

section Requests

variable {vars : Vars} {path value : Name} {flags : UInt32}

variable (h : vars.Sound)
include h

theorem lookupVariable_reach (path : Name) (flags : UInt32) :
    match lookupVariable vars path flags with
    | none => Scope.reach vars.localVars.scope vars.globalVars.scope path flags = none
    | some (global, index) => ∃ entry, (vars.table global)[index]? = some (some entry) ∧
        Scope.reach vars.localVars.scope vars.globalVars.scope path flags =
          some (global, entry) := by
  have hlocal := findVariable_scope h.own path (.ofFlags flags)
  have hglobal := findVariable_scope h.shared path (.ofFlags flags)
  unfold lookupVariable variableScope Scope.reach
  cases hl : hasFlag flags varLocal <;> cases hg : hasFlag flags varGlobal <;>
    cases hown : findVariable vars.localVars path (.ofFlags flags) <;>
    cases hshared : findVariable vars.globalVars path (.ofFlags flags) <;>
    simp_all [Vars.table]

theorem getVar_answers (path : Name) (flags : UInt32) :
    Answers vars.localVars.scope vars.globalVars.scope (.getVar path flags)
      (getVar path flags vars) vars.localVars.scope vars.globalVars.scope := by
  have hlookup := lookupVariable_reach h path flags
  refine ⟨rfl, rfl, ?_⟩
  unfold getVar
  cases hslot : lookupVariable vars path flags with
  | none =>
    rw [hslot] at hlookup
    rw [hlookup]
  | some found =>
  rw [hslot] at hlookup
  obtain ⟨entry, hent, hreach⟩ := hlookup
  rw [hreach]
  simp [hent]

theorem setVar_answers (hname : path ≠ []) (value : Name) (flags : UInt32) :
    (setVar path value flags vars).2.Sound ∧
      Answers vars.localVars.scope vars.globalVars.scope (.setVar path value flags)
        (setVar path value flags vars).1 (setVar path value flags vars).2.localVars.scope
        (setVar path value flags vars).2.globalVars.scope := by
  unfold setVar Answers
  cases hcheck : checkSetVar path value flags with
  | some e => exact ⟨h, by simp [hcheck]⟩
  | none =>
  have hshort : path.length < maxName := by
    unfold checkSetVar at hcheck
    split_ifs at hcheck with _ _ hlong
    exact Nat.not_le.mp (not_or.mp hlong).1
  simp only [hcheck, none_or]
  generalize hasFlag flags varGlobal = global
  have hscope : (if global = true then vars.globalVars.scope else vars.localVars.scope) =
      (vars.table global).scope := by
    cases global <;> rfl
  have hbind := allocateVariable_scope (h.table global) hname hshort (.ofFlags flags) value
  simp only [hscope]
  cases hslot : allocateVariable (vars.table global) path (.ofFlags flags) with
  | none =>
    rw [hslot] at hbind
    rw [if_pos hbind]
    exact ⟨h, rfl, rfl, rfl⟩
  | some slot =>
  rw [hslot] at hbind
  obtain ⟨hroom, hsound, hbound⟩ := hbind
  rw [if_neg hroom]
  refine ⟨h.withTable global hsound, rfl, ?_⟩
  cases global
  · exact ⟨hbound, rfl⟩
  · exact ⟨rfl, hbound⟩

theorem delVar_answers (path : Name) (flags : UInt32) :
    (delVar path flags vars).2.Sound ∧
      Answers vars.localVars.scope vars.globalVars.scope (.delVar path flags)
        (delVar path flags vars).1 (delVar path flags vars).2.localVars.scope
        (delVar path flags vars).2.globalVars.scope := by
  unfold delVar Answers
  dsimp only
  by_cases hsave : hasFlag flags varSave = true
  · rw [if_pos hsave, if_pos hsave]
    exact ⟨h, rfl, rfl, rfl⟩
  rw [if_neg hsave, if_neg hsave]
  have hlookup := lookupVariable_reach h path flags
  cases hslot : lookupVariable vars path flags with
  | none =>
    rw [hslot] at hlookup
    rw [hlookup]
    exact ⟨h, rfl, rfl, rfl⟩
  | some found =>
  obtain ⟨global, index⟩ := found
  rw [hslot] at hlookup
  obtain ⟨entry, hent, hreach⟩ := hlookup
  rw [hreach]
  have hgone := (h.table global).keyed.lookup_release hent
  refine ⟨h.withTable global ((h.table global).release index), rfl, ?_⟩
  cases global
  · exact ⟨hgone, rfl⟩
  · exact ⟨rfl, hgone⟩

theorem listVars_answers (flags : UInt32) :
    Answers vars.localVars.scope vars.globalVars.scope (.listVars flags) (listVars flags vars)
      vars.localVars.scope vars.globalVars.scope := by
  refine ⟨rfl, rfl, ?_⟩
  have hnil : ([] : Name).length < maxListResult := by decide
  unfold listVars
  dsimp only
  generalize hwant : (hasFlag flags varLocal || !hasFlag flags varGlobal) = inLocal
  have hiff : (hasFlag flags varLocal = true ∨ ¬ hasFlag flags varGlobal = true) ↔
      inLocal = true := by
    rw [← hwant]
    simp
  simp only [hiff]
  generalize hasFlag flags varGlobal = inGlobal
  -- what each of the two tables is to print
  obtain ⟨own, hown, htext⟩ : ∃ own, (if inLocal = true then
      vars.localVars.scope.Lists flags own else own = []) ∧
      (if inLocal = true then appendVariableList flags vars.localVars [] else some []) =
        if maxListResult ≤ (Scope.listing own).length then none
        else some (Scope.listing own) := by
    cases inLocal
    · exact ⟨[], rfl, rfl⟩
    · refine ⟨_, h.own.lists flags, ?_⟩
      exact appendVariableList_eq flags vars.localVars hnil
  obtain ⟨shared, hshared, htext'⟩ : ∃ shared, (if inGlobal = true then
      vars.globalVars.scope.Lists flags shared else shared = []) ∧
      ∀ result : Name, result.length < maxListResult →
        (if inGlobal = true then appendVariableList flags vars.globalVars result else some result) =
        if maxListResult ≤ (result ++ Scope.listing shared).length then none
        else some (result ++ Scope.listing shared) := by
    cases inGlobal
    · refine ⟨[], rfl, fun result hfits => ?_⟩
      simp [Scope.listing, Nat.not_le.mpr hfits]
    · exact ⟨_, h.shared.lists flags, fun result hfits =>
        appendVariableList_eq flags vars.globalVars hfits⟩
  refine ⟨own, shared, hown, hshared, ?_⟩
  have hsplit : Scope.listing (own ++ shared) = Scope.listing own ++ Scope.listing shared := by
    simp [Scope.listing]
  rw [htext, hsplit]
  by_cases hlong : maxListResult ≤ (Scope.listing own).length
  · rw [if_pos hlong, if_pos]
    rw [length_append]
    omega
  rw [if_neg hlong]
  simp only
  rw [htext' _ (Nat.not_le.mp hlong)]
  by_cases hboth : maxListResult ≤ (Scope.listing own ++ Scope.listing shared).length
  · rw [if_pos hboth, if_pos hboth]
  · rw [if_neg hboth, if_neg hboth]

theorem serveVariable_answers (hnamed : request.Named) :
    (serveVariable vars request).2.Sound ∧
      Answers vars.localVars.scope vars.globalVars.scope request (serveVariable vars request).1
        (serveVariable vars request).2.localVars.scope
        (serveVariable vars request).2.globalVars.scope := by
  cases request with
  | getVar path flags => exact ⟨h, getVar_answers h path flags⟩
  | setVar path value flags => exact setVar_answers h hnamed value flags
  | delVar path flags => exact delVar_answers h path flags
  | listVars flags => exact ⟨h, listVars_answers h flags⟩

end Requests

/-! ## Sessions -/

namespace Broker

variable {b : Broker} {index : ℕ}

theorem freeSession_ne_none (hpos : b.sessions ≠ [])
    (hancs : ∀ session ∈ live b.sessions, session.anchors = 0) : b.freeSession ≠ none := by
  unfold freeSession
  cases hfree : b.sessions.findIdx? (·.isNone) with
  | some index => simp
  | none =>
  obtain ⟨slot, rest, hslots⟩ := exists_cons_of_ne_nil hpos
  cases slot with
  | none =>
    have := findIdx?_eq_none_iff.mp hfree none (by rw [hslots]; exact mem_cons_self)
    simp at this
  | some session =>
  have hzero := hancs session (mem_live.mpr (by rw [hslots]; exact mem_cons_self))
  intro hnone
  rw [coldest_argmin, Option.map_eq_none_iff, argmin_eq_none] at hnone
  have hmem : (0, session.lastUsed) ∈ unanchored 0 b.sessions :=
    mem_unanchored.mpr ⟨session, by rw [hslots]; rfl, hzero, rfl⟩
  rw [hnone] at hmem
  exact not_mem_nil hmem

end Broker

namespace Shells

variable {s s' : Shells} {id : Name} {index : ℕ}

def scopes (s : Shells) : Scopes where
  sessions id := (s.broker.sessionIndex id).map fun index => (s.sessionAt index).localVars.scope
  globals := s.globalVars.scope

theorem scopes_sessions (s : Shells) (id : Name) :
    s.scopes.sessions id =
      (s.broker.sessionIndex id).map fun index => (s.sessionAt index).localVars.scope := rfl

/-- The tables are sound, and so is the session table: no id is held twice, every id fits, and no
session is anchored. -/
structure Sound (s : Shells) : Prop where
  ids : Keyed BrokerSession.id s.broker.sessions
  size : s.broker.sessions.length = maxSessions
  data : s.data.length = maxSessions
  held : ∀ session ∈ live s.broker.sessions, session.anchors = 0 ∧ session.id.length < sessionIdSize
  own : ∀ index session, s.broker.sessions[index]? = some (some session) →
    (s.sessionAt index).localVars.Sound
  shared : s.globalVars.Sound

theorem sound_start (cat : Catalog) : (start cat).Sound where
  ids := keyed_replicate _ _
  size := length_replicate
  data := length_replicate
  held := by simp [start, Broker.start]
  own := by
    intro index session h
    have := eq_of_mem_replicate (mem_of_getElem? h)
    cases this
  shared := VarTable.sound_cleared

theorem Sound.sessionIndex_iff (h : s.Sound) :
    s.broker.sessionIndex id = some index ↔
      ∃ session, s.broker.sessions[index]? = some (some session) ∧ session.id = id :=
  h.ids.findIdx?_eq_some_iff fun _ => beq_iff_eq

theorem Sound.sessionIndex_inj (h : s.Sound) {id' : Name}
    (hidx : s.broker.sessionIndex id = some index)
    (hidx' : s.broker.sessionIndex id' = some index) : id = id' := by
  obtain ⟨session, hslot, rfl⟩ := h.sessionIndex_iff.mp hidx
  obtain ⟨session', hslot', rfl⟩ := h.sessionIndex_iff.mp hidx'
  rw [some.inj (some.inj (hslot.symm.trans hslot'))]

theorem Sound.sessions_eq_none (h : s.Sound) :
    s.scopes.sessions id = none ↔ ∀ session ∈ live s.broker.sessions, session.id ≠ id := by
  rw [scopes_sessions, map_eq_none_iff]
  constructor
  · intro hnone session hsess hid
    have := not_of_findIdx?_eq_none hnone hsess
    simp [hid] at this
  intro hall
  rw [eq_none_iff_forall_ne_some]
  intro index hidx
  obtain ⟨session, hslot, hid⟩ := h.sessionIndex_iff.mp hidx
  exact hall session (mem_live.mpr (mem_of_getElem? hslot)) hid

theorem Sound.scopes_held (h : s.Sound) : s.scopes.held = (live s.broker.sessions).length := by
  rw [← h.ids.ncard_keys]
  unfold Scopes.held
  congr 1
  ext id
  exact not_congr (h.sessions_eq_none.trans lookup_eq_none.symm)

structure Writes (index : ℕ) (session : BrokerSession) (s s' : Shells) : Prop where
  lt : index < s.broker.sessions.length
  sessions : s'.broker.sessions = s.broker.sessions.set index (some session)
  others : ∀ other ≠ index, s'.sessionAt other = s.sessionAt other
  data : s'.data.length = s.data.length
  shared : s'.globalVars = s.globalVars

variable {session : BrokerSession}

section

variable (h : Writes index session s s')
include h

theorem Writes.slot :
    s'.broker.sessions[index]? = some (some session) := by
  rw [h.sessions]
  exact getElem?_set_self h.lt

theorem Writes.slot_ne {other : ℕ} (hne : other ≠ index) :
    s'.broker.sessions[other]? = s.broker.sessions[other]? := by
  rw [h.sessions]
  exact getElem?_set_ne hne.symm

theorem Writes.sound (hs : s.Sound)
    (hids : Keyed BrokerSession.id s'.broker.sessions)
    (hheld : session.anchors = 0 ∧ session.id.length < sessionIdSize)
    (hown : (s'.sessionAt index).localVars.Sound) : s'.Sound where
  ids := hids
  size := by rw [h.sessions, length_set, hs.size]
  data := h.data.trans hs.data
  held := by
    intro other hother
    rw [h.sessions, (live_set_some h.lt session).mem_iff, mem_cons] at hother
    rcases hother with rfl | hother
    · exact hheld
    · exact hs.held other ((live_release_sublist _ _).subset hother)
  own := by
    intro other session' hslot
    by_cases hne : other = index
    · exact hne ▸ hown
    · rw [h.others other hne]
      exact hs.own other session' (h.slot_ne hne ▸ hslot)
  shared := h.shared ▸ hs.shared

theorem Writes.scopes_eq (hs : s.Sound) (hs' : s'.Sound)
    (id : Name) :
    s'.scopes.sessions id =
      if id = session.id then some (s'.sessionAt index).localVars.scope
      else if s.broker.sessionIndex id = some index then none else s.scopes.sessions id := by
  rw [scopes_sessions, scopes_sessions]
  by_cases hid : id = session.id
  · rw [if_pos hid, hs'.sessionIndex_iff.mpr ⟨session, h.slot, hid.symm⟩]
    rfl
  rw [if_neg hid]
  have hnot : s'.broker.sessionIndex id ≠ some index := fun hidx =>
    hid (hs'.sessionIndex_inj hidx (hs'.sessionIndex_iff.mpr ⟨session, h.slot, rfl⟩))
  have hsame : ∀ other ≠ index,
      (s'.broker.sessionIndex id = some other ↔ s.broker.sessionIndex id = some other) := by
    intro other hne
    rw [hs'.sessionIndex_iff, hs.sessionIndex_iff, h.slot_ne hne]
  cases hold : s.broker.sessionIndex id with
  | some other =>
    by_cases hother : other = index
    · subst hother
      rw [if_pos rfl, map_eq_none_iff, eq_none_iff_forall_ne_some]
      intro j hj
      by_cases hne : j = other
      · exact hnot (hne ▸ hj)
      · exact hne (some.inj (hold.symm.trans ((hsame j hne).mp hj))).symm
    · rw [if_neg (fun heq => hother (some.inj heq)), (hsame other hother).mpr hold]
      simp only [map_some, h.others other hother]
  | none =>
  rw [if_neg (by simp), map_none, map_eq_none_iff,
    eq_none_iff_forall_ne_some]
  intro j hj
  by_cases hne : j = index
  · exact hnot (hne ▸ hj)
  · rw [(hsame j hne).mp hj] at hold
    cases hold

end

theorem getSession_known (sys : System) (hs : s.Sound)
    (hidx : s.broker.sessionIndex id = some index) :
    ∃ s', s.getSession sys id = some (index, s') ∧ s'.Sound ∧
      s'.broker.sessionIndex id = some index ∧ s'.globalVars = s.globalVars ∧
      s'.scopes.sessions = s.scopes.sessions := by
  obtain ⟨old, hold, hoid⟩ := hs.sessionIndex_iff.mp hidx
  obtain ⟨clock, htouch⟩ := Broker.touchSession_eq hold
  have hget : s.getSession sys id =
      some (index, { s with broker := s.broker.touchSession index }) := by
    unfold getSession Broker.getSession
    rw [hidx]
    rfl
  have hw : Writes index { old with lastUsed := clock } s
      { s with broker := s.broker.touchSession index } :=
    ⟨(List.getElem?_eq_some_iff.mp hold).1, by rw [htouch], fun _ _ => rfl, rfl, rfl⟩
  have hsound := hw.sound hs (by rw [hw.sessions]; exact hs.ids.set hold rfl)
    (hs.held old (mem_live.mpr (mem_of_getElem? hold))) (hs.own index old hold)
  refine ⟨_, hget, hsound, hsound.sessionIndex_iff.mpr ⟨_, hw.slot, hoid⟩, rfl, ?_⟩
  funext other
  rw [hw.scopes_eq hs hsound other]
  by_cases hother : other = id
  · rw [if_pos (hother.trans hoid.symm), hother]
    rw [scopes_sessions, hidx]
    rfl
  · rw [if_neg (fun heq => hother (heq.trans hoid)), if_neg]
    exact fun hsame => hother (hs.sessionIndex_inj hsame hidx)

/-- A session that the broker does not hold is written to a slot, with nothing bound; it takes the
map from the session that was there. -/
theorem getSession_new (sys : System) (hs : s.Sound) (hid : id.length < sessionIdSize)
    (hnone : s.broker.sessionIndex id = none) :
    ∃ index s', s.broker.freeSession = some index ∧ s.getSession sys id = some (index, s') ∧
      s'.Sound ∧ s'.broker.sessionIndex id = some index ∧ s'.globalVars = s.globalVars ∧
      ∀ other, s'.scopes.sessions other = if other = id then some fun _ => none
        else if s.broker.sessionIndex other = some index then none
        else s.scopes.sessions other := by
  have hpos : s.broker.sessions ≠ [] := by
    intro hnil
    have hsize := hs.size
    rw [hnil] at hsize
    cases hsize
  obtain ⟨index, hfree⟩ := ne_none_iff_exists'.mp
    (Broker.freeSession_ne_none hpos fun session hsess => (hs.held session hsess).1)
  have hlt := (Broker.freeSession_unanchored hfree).1
  have hplaced : (s.broker.sessions.set index (some ⟨id, 0, 0⟩))[index]? =
      some (some ⟨id, 0, 0⟩) := getElem?_set_self hlt
  obtain ⟨clock, htouch⟩ := @Broker.touchSession_eq
    { s.broker with sessions := s.broker.sessions.set index (some ⟨id, 0, 0⟩) } _ _ hplaced
  rw [set_set] at htouch
  obtain ⟨s', hget, hw, hown⟩ : ∃ s', s.getSession sys id = some (index, s') ∧
      Writes index ⟨id, clock, 0⟩ s s' ∧ (s'.sessionAt index).localVars = .cleared := by
    unfold getSession Broker.getSession
    rw [hnone, hfree]
    simp only [if_neg (Nat.not_le.mpr hid), htouch, map_some]
    refine ⟨_, rfl, ⟨hlt, rfl, fun other hne => ?_, length_set, rfl⟩, ?_⟩
    · simp [sessionAt, getElem?_set_ne hne.symm]
    have hdata : index < s.data.length := by rw [hs.data, ← hs.size]; exact hlt
    simp [sessionAt, hdata]
    rfl
  have hnew := hs.sessions_eq_none.mp (by rw [scopes_sessions, hnone, map_none])
  have hids : Keyed BrokerSession.id s'.broker.sessions := by
    rw [hw.sessions]
    exact hs.ids.set_new hlt fun other hother =>
      hnew other ((live_release_sublist _ _).subset hother)
  have hsound := hw.sound hs hids ⟨rfl, hid⟩ (hown ▸ VarTable.sound_cleared)
  refine ⟨index, s', hfree, hget, hsound, hsound.sessionIndex_iff.mpr ⟨_, hw.slot, rfl⟩,
    hw.shared, fun other => ?_⟩
  rw [hw.scopes_eq hs hsound other, hown, VarTable.scope_cleared]

/-- **Finding a session.** An id that fits gets its session: the one it has, or a new one with
nothing bound, in the place of another session only when all slots are taken. -/
theorem getSession_scopes (sys : System) (hs : s.Sound) (hid : id.length < sessionIdSize) :
    ∃ index s', s.getSession sys id = some (index, s') ∧ s'.Sound ∧
      s'.broker.sessionIndex id = some index ∧ s'.globalVars = s.globalVars ∧
      (s.scopes.sessions id ≠ none ∧ s'.scopes.sessions = s.scopes.sessions ∨
        s.scopes.sessions id = none ∧ s.scopes.held < maxSessions ∧
          s'.scopes.sessions = Function.update s.scopes.sessions id (some fun _ => none) ∨
        s.scopes.sessions id = none ∧ s.scopes.held = maxSessions ∧
          ∃ other, s.scopes.sessions other ≠ none ∧ s'.scopes.sessions =
            Function.update (Function.update s.scopes.sessions other none) id
              (some fun _ => none)) := by
  cases hindex : s.broker.sessionIndex id with
  | some index =>
    obtain ⟨s', hget, hsound, hat, hshared, hscopes⟩ := getSession_known sys hs hindex
    refine ⟨index, s', hget, hsound, hat, hshared, .inl ⟨?_, hscopes⟩⟩
    simp [scopes_sessions, hindex]
  | none =>
  obtain ⟨index, s', hfree, hget, hsound, hat, hshared, hscopes⟩ :=
    getSession_new sys hs hid hindex
  have hnone : s.scopes.sessions id = none := by
    rw [scopes_sessions, hindex, map_none]
  refine ⟨index, s', hget, hsound, hat, hshared, .inr ?_⟩
  rcases Broker.freeSession_spec hfree with hslot | ⟨hfull, old, hold, -⟩
  · refine .inl ⟨hnone, ?_, ?_⟩
    · rw [hs.scopes_held, ← hs.size]
      refine lt_of_le_of_ne (live_length_le _) fun hall => ?_
      have htaken := findIdx?_eq_none_iff.mp (findIdx?_isNone_eq_none.mpr hall) none
        (mem_of_getElem? hslot)
      cases htaken
    funext other
    rw [hscopes other, update_apply]
    -- nobody was in the slot
    refine if_congr Iff.rfl rfl (if_neg fun hsame => ?_)
    obtain ⟨session, hsess, -⟩ := hs.sessionIndex_iff.mp hsame
    cases hslot.symm.trans hsess
  · refine .inr ⟨hnone, ?_, old.id, ?_, ?_⟩
    · rw [hs.scopes_held, findIdx?_isNone_eq_none.mp hfull, hs.size]
    · intro hgone
      exact hs.sessions_eq_none.mp hgone old (mem_live.mpr (mem_of_getElem? hold)) rfl
    funext other
    rw [hscopes other, update_apply, update_apply]
    have hindex := hs.sessionIndex_iff.mpr ⟨old, hold, rfl⟩
    refine if_congr Iff.rfl rfl (if_congr ⟨fun hsame => ?_, fun heq => ?_⟩ rfl rfl)
    · exact hs.sessionIndex_inj hsame hindex
    · exact heq ▸ hindex

theorem Sound.view_vars (hs : s.Sound) (hidx : s.broker.sessionIndex id = some index) :
    (s.view index).vars.Sound := by
  obtain ⟨session, hslot, -⟩ := hs.sessionIndex_iff.mp hidx
  exact ⟨hs.own index session hslot, hs.shared⟩

theorem update_scopes (hs : s.Sound) (hidx : s.broker.sessionIndex id = some index)
    (hvars : vars.Sound) :
    (s.update index ((s.view index).withVars vars)).Sound ∧
      (s.update index ((s.view index).withVars vars)).scopes =
        ⟨Function.update s.scopes.sessions id (some vars.localVars.scope),
          vars.globalVars.scope⟩ := by
  obtain ⟨session, hslot, hid⟩ := hs.sessionIndex_iff.mp hidx
  have hlt : index < s.data.length := by
    rw [hs.data, ← hs.size]
    exact (List.getElem?_eq_some_iff.mp hslot).1
  generalize hafter : s.update index ((s.view index).withVars vars) = s'
  have hown : (s'.sessionAt index).localVars = vars.localVars := by
    subst hafter
    simp [sessionAt, update, hlt, ShellState.withVars]
  have hothers : ∀ other ≠ index, s'.sessionAt other = s.sessionAt other := by
    subst hafter
    intro other hne
    simp [sessionAt, update, getElem?_set_ne hne.symm]
  have hbroker : s'.broker = s.broker := by subst hafter; rfl
  have hshared : s'.globalVars = vars.globalVars := by subst hafter; rfl
  constructor
  · refine ⟨hbroker ▸ hs.ids, hbroker ▸ hs.size, ?_, hbroker ▸ hs.held, ?_, hshared ▸ hvars.shared⟩
    · subst hafter
      exact length_set.trans hs.data
    intro other session' hslot'
    by_cases hne : other = index
    · rw [hne, hown]
      exact hvars.own
    · rw [hothers other hne]
      exact hs.own other session' (hbroker ▸ hslot')
  have hsessions : s'.scopes.sessions =
      Function.update s.scopes.sessions id (some vars.localVars.scope) := by
    funext other
    rw [scopes_sessions, hbroker]
    by_cases hother : other = id
    · rw [hother, hidx, update_self, map_some, hown]
    rw [update_of_ne hother]
    refine map_congr fun index' hidx' => ?_
    rw [hothers index' fun heq => ?_]
    exact hother (hs.sessionIndex_inj (heq ▸ hidx') hidx)
  rw [← hsessions, ← hshared]
  rfl

/-! ## Runs -/

theorem serve_vars (z : Zlib) (sys : System) (fuel : ℕ) (errno : Option Errno) (index : ℕ)
    (request : VarRequest) (s : Shells) :
    s.serve z sys fuel errno index (.vars request) =
      some ((serveVariable (s.view index).vars request).1,
        s.update index ((s.view index).withVars (serveVariable (s.view index).vars request).2)) :=
  rfl

/-- **One request.** It is answered, as the maps answer it. -/
theorem handleClient_step (z : Zlib) (sys : System) (fuel : ℕ) (errno : Option Errno) (hs : s.Sound)
    (id : Name) (hnamed : request.Named) :
    ∃ reply s', s.handleClient z sys fuel errno id (.vars request) = some (reply, s') ∧
      s'.Sound ∧ s.scopes.Step id request reply s'.scopes := by
  unfold handleClient
  by_cases hid : id.length < sessionIdSize
  · obtain ⟨index, s₁, hget, hs₁, hidx, hshared, hscopes⟩ := getSession_scopes sys hs hid
    obtain ⟨hvars, hanswers⟩ := serveVariable_answers (hs₁.view_vars hidx) hnamed
    obtain ⟨hs', hafter⟩ := update_scopes hs₁ hidx hvars
    rw [hget]
    refine ⟨_, _, serve_vars z sys fuel errno index request s₁, hs', ?_⟩
    rw [hafter]
    have hglobals : (s₁.view index).vars.globalVars.scope = s.scopes.globals :=
      congrArg VarTable.scope hshared
    have hown : s₁.scopes.sessions id = some (s₁.view index).vars.localVars.scope := by
      rw [scopes_sessions, hidx]
      rfl
    rw [hglobals] at hanswers
    rcases hscopes with ⟨-, hsame⟩ | ⟨hnew, hroom, hfresh⟩ | ⟨hnew, hfull, other, hother, hfresh⟩
    · rw [hsame]
      rw [hsame] at hown
      exact .known hown hanswers
    · rw [hfresh, update_idem]
      rw [hfresh, update_self] at hown
      rw [← some.inj hown] at hanswers
      exact .fresh hnew hroom hanswers
    · rw [hfresh, update_idem]
      rw [hfresh, update_self] at hown
      rw [← some.inj hown] at hanswers
      exact .reclaimed other hnew hfull hother hanswers
  · have hnone : s.broker.sessionIndex id = none := by
      rw [eq_none_iff_forall_ne_some]
      intro index hidx
      obtain ⟨session, hslot, rfl⟩ := hs.sessionIndex_iff.mp hidx
      exact hid (hs.held session (mem_live.mpr (mem_of_getElem? hslot))).2
    have hget : s.getSession sys id = none := by
      unfold getSession Broker.getSession
      rw [hnone]
      cases s.broker.freeSession with
      | none => rfl
      | some index =>
        simp only [if_pos (Nat.not_lt.mp hid)]
        rfl
    rw [hget]
    exact ⟨_, _, rfl, hs, .refused (Nat.not_lt.mp hid) rfl⟩

structure VarCall where
  sys : System
  session : Name
  request : VarRequest

def answerAll (z : Zlib) (fuel : ℕ) (errno : Option Errno) :
    List VarCall → Shells → Option (List Reply × Shells)
  | [], s => some ([], s)
  | call :: calls, s =>
    match s.handleClient z call.sys fuel errno call.session (.vars call.request) with
    | none => none
    | some (reply, s) => (answerAll z fuel errno calls s).map fun (replies, s) =>
      (reply :: replies, s)

end Shells

inductive Scopes.Run : Scopes → List Shells.VarCall → List Reply → Scopes → Prop
  | nil (a : Scopes) : Run a [] [] a
  | cons {a a' a'' : Scopes} {call : Shells.VarCall} {calls : List Shells.VarCall} {reply : Reply}
    {replies : List Reply} (h : a.Step call.session call.request reply a')
    (hrest : Run a' calls replies a'') : Run a (call :: calls) (reply :: replies) a''

namespace Shells

theorem answerAll_run (z : Zlib) (fuel : ℕ) (errno : Option Errno) {s : Shells}
    {calls : List VarCall} (hs : s.Sound) (hnamed : ∀ call ∈ calls, call.request.Named) :
    ∃ replies s', answerAll z fuel errno calls s = some (replies, s') ∧ s'.Sound ∧
      Scopes.Run s.scopes calls replies s'.scopes := by
  induction calls generalizing s with
  | nil => exact ⟨[], s, rfl, hs, .nil _⟩
  | cons call calls ih =>
  obtain ⟨reply, s₁, hreply, hs₁, hstep⟩ := handleClient_step z call.sys fuel errno hs
    call.session (hnamed call mem_cons_self)
  obtain ⟨replies, s', hreplies, hs', hrun⟩ :=
    ih hs₁ fun other hother => hnamed other (mem_cons_of_mem _ hother)
  refine ⟨reply :: replies, s', ?_, hs', .cons hstep hrun⟩
  unfold answerAll
  rw [hreply]
  simp [hreplies]

/-- **Variables are scoped maps.** Every sequence of variable requests with names that are not
empty, from any sessions, is answered as the maps answer it, from no map at all. In the tables it
leaves no key is held by two slots and at most `MAX_VARS` keys are bound. -/
theorem variables_scoped (z : Zlib) (fuel : ℕ) (errno : Option Errno) (cat : Catalog)
    (calls : List VarCall) (hnamed : ∀ call ∈ calls, call.request.Named) :
    ∃ replies s, answerAll z fuel errno calls (start cat) = some (replies, s) ∧
      Scopes.Run .empty calls replies s.scopes ∧
      (Keyed Variable.key s.globalVars ∧ s.globalVars.scope.count ≤ maxVars) ∧
      ∀ id index, s.broker.sessionIndex id = some index →
        Keyed Variable.key (s.sessionAt index).localVars ∧
          (s.sessionAt index).localVars.scope.count ≤ maxVars := by
  obtain ⟨replies, s, hreplies, hs, hrun⟩ := answerAll_run z fuel errno (sound_start cat) hnamed
  have hempty : (start cat).scopes = .empty := by
    rfl
  refine ⟨replies, s, hreplies, hempty ▸ hrun, ⟨hs.shared.keyed, hs.shared.count_le⟩, ?_⟩
  intro id index hindex
  have hvars := hs.view_vars hindex
  exact ⟨hvars.own.keyed, hvars.own.count_le⟩

def spelledCalls : List VarCall :=
  [⟨flatSystem, ascii "a", .setVar (ascii "Foo") (ascii "1") 0⟩,
    ⟨flatSystem, ascii "a", .getVar (ascii "FOO") 0⟩]

theorem variables_scoped_spelled :
    ∃ replies s, answerAll storedZlib 0 none spelledCalls (start emptyCatalog) = some (replies, s) ∧
      replies = [.ok, ⟨none, ascii "1"⟩] ∧ Scopes.Run .empty spelledCalls replies s.scopes := by
  have hreplies : (answerAll storedZlib 0 none spelledCalls (start emptyCatalog)).map Prod.fst =
      some [.ok, ⟨none, ascii "1"⟩] := by
    decide +kernel
  obtain ⟨replies, s, hanswer, hrun, -⟩ :=
    variables_scoped storedZlib 0 none emptyCatalog spelledCalls (by decide +kernel)
  rw [hanswer] at hreplies
  exact ⟨replies, s, hanswer, some.inj hreplies, hrun⟩

/-- A session sets a variable and reads it again after 64 other sessions have been heard of. -/
def crowdedCalls : List VarCall :=
  ⟨flatSystem, [], .setVar (ascii "x") (ascii "1") 0⟩ ::
    (range maxSessions).map (fun n =>
      ⟨flatSystem, [UInt8.ofNat (n + 1)], .getVar (ascii "x") 0⟩) ++
    [⟨flatSystem, [], .getVar (ascii "x") 0⟩]

/-- A variable that was set and never deleted may be gone, because its session was given up for
others; and SETVAR with both scope flags sets nothing. -/
theorem variables_lost :
    (answerAll storedZlib 0 none crowdedCalls (start emptyCatalog)).map
        (fun answer => (answer.1.head?, answer.1.getLast?)) =
        some (some .ok, some (.fail .enoent)) ∧
      (answerAll storedZlib 0 none
        [⟨flatSystem, [], .setVar (ascii "x") (ascii "1") (varLocal ||| varGlobal)⟩,
          ⟨flatSystem, [], .getVar (ascii "x") varLocal⟩] (start emptyCatalog)).map Prod.fst =
        some [.fail .einval, .fail .enoent] := by
  constructor <;> decide +kernel

end Shells

end AceShell
