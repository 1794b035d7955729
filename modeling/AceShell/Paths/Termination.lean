import AceShell.Paths.Assign
import AceShell.Paths.Links
import AceShell.Paths.VolumeRoundTrip

/-!
# Path resolution terminates while assigns form no cycle

An ASSIGN request adds links at its own name only (`handleAssign_links`): to the names of devices
where it stores a canonical text, to the name in its value where it stores that. While no request
links its name to one that leads back to it, every resolution and every request returns
(`resolvePath_terminates`). Nothing in the handler keeps a request from closing a cycle
(`deferred_to_itself`).
-/

namespace AceShell

open Text Graph Relation List Option

variable {z : Zlib} {host : Host} {st st' : PathState} {session : Session} {n fuel : ℕ}

/-! ## Canonical texts -/

def Catalog.aliasNames (cat : Catalog) : List Name :=
  cat.aliases.filterMap fun aliasName => nextName (aliasName ++ [colon])

variable {cat : Catalog} {device : Device}

theorem aliasOf_mem {aliasName : Name} (hmem : device ∈ cat.devices)
    (h : cat.aliasOf device = .ok aliasName) : aliasName ∈ cat.aliases := by
  refine mem_flatMap.mpr ⟨device, hmem, ?_⟩
  unfold Catalog.aliasOf at h
  split_ifs at h <;> simp [← Except.ok.inj h]

variable {canonical : Name}

theorem betterView_mem {devices : List Device} :
    ∀ device, devices.foldl (betterView canonical) none = some device → device ∈ devices := by
  refine foldlRecOn (motive := fun best => ∀ device, best = some device → device ∈ devices)
    devices _ (by simp) fun best hbest d hd device hb => ?_
  unfold betterView at hb
  split_ifs at hb with h1
  · split at hb
    · exact some.inj hb ▸ hd
    · split_ifs at hb
      · exact some.inj hb ▸ hd
      · exact hbest device hb
  · exact hbest device hb

variable {path : Name}

theorem findMountForPath_mem {record : MountRecord}
    (h : findMountForPath host cat path n = .ok (canonical, record, device)) :
    device ∈ cat.devices := by
  unfold findMountForPath at h
  split at h
  · simp at h
  rename_i canonical _
  split at h
  · simp at h
  rename_i records _
  split at h
  · simp at h
  rename_i hbest
  cases h
  exact mem_of_find?_eq_some (Selected.foldl _ _ hbest).2.2

theorem nameFromPath_alias {raw : Name} (h : nameFromPath host cat path n = .ok raw) :
    ∃ aliasName ∈ cat.aliases, colon ∉ aliasName ∧ ∃ rest, raw = aliasName ++ colon :: rest := by
  unfold nameFromPath at h
  split at h
  · simp at h
  simp only at h
  split at h
  · simp at h
  rename_i hlocated
  split at h
  · simp at h
  rename_i aliasName halias
  split_ifs at h
  refine ⟨aliasName, aliasOf_mem ?_ halias,
    (validAlias_spec (lookup_unique (aliasOf_spec halias).1).1).2, ?_⟩
  · split at hlocated
    · next hview =>
      cases hlocated
      exact betterView_mem _ hview
    split at hlocated
    · simp at hlocated
    · next hmount =>
      cases hlocated
      exact findMountForPath_mem hmount
  · cases happ : appendRelativePath _ _ _ _ with
    | error e => rw [happ] at h; simp [Except.map] at h
    | ok text =>
      rw [happ] at h
      exact ⟨text, (Except.ok.inj h).symm⟩

variable {r : Except Errno Name} {name : Name}

theorem ok_of_guard {c : Prop} [Decidable c] {e : Errno}
    (h : (if c then .error e else r) = .ok name) : r = .ok name := by
  by_cases hc : c
  · rw [if_pos hc] at h
    simp at h
  · rwa [if_neg hc] at h

theorem mapComponents_append : ∀ {raws hosts : List Name} {result parent name : Name},
    mapComponents z host n result parent raws hosts = .ok name → ∃ rest, name = result ++ rest := by
  intro raws
  induction raws with
  | nil =>
    intro hosts result parent name h
    exact ⟨[], by rw [append_nil]; exact (Except.ok.inj h).symm⟩
  | cons raw raws ih =>
  intro hosts result parent name h
  have h := ok_of_guard h
  simp only at h
  split at h
  · simp at h
  split at h
  · simp at h
  rename_i happ
  obtain ⟨rest, rfl⟩ := ih (ok_of_guard h)
  rw [← (copyOut_eq_ok.mp happ).2]
  exact ⟨_, by rw [append_assoc, append_assoc]⟩

variable {b : Name}

theorem nextName_canonical {logical : Name}
    (h : nameFromHostWithMappings z host cat path n = .ok logical) (hb : nextName logical = some b)
    : b ∈ cat.aliasNames := by
  unfold nameFromHostWithMappings at h
  split at h
  · simp at h
  rename_i raw hraw
  obtain ⟨aliasName, hmem, hcolon, rest, rfl⟩ := nameFromPath_alias hraw
  split at h
  · simp at h
  split at h
  · simp at h
  rw [takeWhile_bne_append hcolon] at h
  simp only at h
  split_ifs at h
  obtain ⟨tailText, rfl⟩ := mapComponents_append h
  refine mem_filterMap.mpr ⟨aliasName, hmem, ?_⟩
  rw [← hb]
  unfold nextName
  rw [append_assoc, singleton_append, takeWhile_bne_append hcolon, takeWhile_bne_append hcolon]
  cases aliasName <;> simp

/-! ## Requests -/

theorem Narrows.aliasNames (h : Narrows st' st) : st'.cat.aliasNames ⊆ st.cat.aliasNames := by
  intro b hb
  obtain ⟨aliasName, hmem, hb⟩ := mem_filterMap.mp hb
  exact mem_filterMap.mpr ⟨aliasName, h.aliases hmem, hb⟩

variable {value : Name}

theorem canonicalAssignTarget_spec
    (h : canonicalAssignTarget z host fuel st value n = some (r, st')) :
    Narrows st' st ∧ ∀ target b, r = .ok target → nextName target = some b →
      b ∈ st.cat.aliasNames := by
  obtain ⟨_, hres, hnamed⟩ := canonicalAssignTarget_resolves h
  have hnarrow := resolvePath_narrows _ _ hres
  refine ⟨hnarrow, fun target b hok hb => ?_⟩
  obtain ⟨path, -, hname⟩ := hnamed target hok
  exact hnarrow.aliasNames (nextName_canonical hname hb)

variable {index : ℕ} {entry : Assign} {a : Name}

theorem links_updateEntry {f : Assign → Option Assign} (hent : session.entryAt index = some entry)
    (h : Links (session.updateEntry index f) a b) :
    (∃ entry', f entry = some entry' ∧ entry'.name.map toLower = a ∧ b ∈ entry'.nextNames) ∨
      Links session a b := by
  unfold Session.updateEntry at h
  rw [hent] at h
  exact links_setSlot h

def Session.targetsOf (session : Session) (name : Name) : List Name :=
  ((session.findAssign name).bind session.entryAt).elim [] Assign.targets

/-- The names a request can make its assign lead to: of the devices where it stores a canonical
text, of the value where it stores that, and of the targets that ADD keeps. -/
def AssignRequest.leads (request : AssignRequest) (st : PathState) (name : Name) : List Name :=
  if request.has assignRemove || request.has assignRemoveItem then []
  else if request.has (assignAdd ||| assignPrepend) then
    st.cat.aliasNames ++ (st.session.targetsOf name).filterMap nextName
  else if request.has (assignPath ||| assignDefer) then (nextName request.value).toList
  else st.cat.aliasNames

variable {target : Name}

theorem nextNames_removeTarget {entry' : Assign} (h : entry.removeTarget target = some entry') :
    entry'.name = entry.name ∧ entry'.nextNames ⊆ entry.nextNames := by
  unfold Assign.removeTarget at h
  simp only at h
  split_ifs at h with hempty
  obtain rfl := some.inj h
  refine ⟨rfl, fun b hb => ?_⟩
  have hne : entry.targets ≠ [] := by
    rintro he
    rw [he] at hempty
    exact hempty rfl
  unfold Assign.nextNames Assign.texts at hb ⊢
  simp only [if_neg hempty, if_neg hne] at hb ⊢
  by_cases hbacked : entry.hostBacked = true
  · rwa [if_pos hbacked] at hb ⊢
  rw [if_neg hbacked] at hb ⊢
  obtain ⟨text, hmem, htext⟩ := mem_filterMap.mp hb
  exact mem_filterMap.mpr ⟨text, eraseP_subset hmem, htext⟩

theorem nextNames_addTarget {atFront : Bool} (hb : b ∈ (entry.addTarget atFront target).nextNames) :
    nextName target = some b ∨ b ∈ entry.targets.filterMap nextName := by
  have htexts : ∀ text ∈ (entry.addTarget atFront target).texts,
      text = target ∨ text ∈ entry.targets := by
    intro text hm
    cases atFront <;> simp [Assign.texts, Assign.addTarget] at hm
    · exact hm.symm
    · exact hm
  obtain ⟨text, hmem, htext⟩ := mem_filterMap.mp hb
  rcases htexts text hmem with rfl | hmem
  · exact Or.inl htext
  · exact Or.inr (mem_filterMap.mpr ⟨text, hmem, htext⟩)

theorem narrows_findAssign {name : Name} {index : ℕ}
    (h : st.session.findAssign name = some index) :
    Narrows st st ∧ ∃ entry, st.session.entryAt index = some entry ∧
      entry.name.map toLower = name.map toLower := by
  obtain ⟨entry, hent, hname⟩ := entry_of_findAssign h
  exact ⟨Narrows.refl st, entry, hent, caseEq_iff.mp hname⟩

theorem allocateAssign_narrows {name : Name} {index : ℕ} {session' : Session}
    (h : st.session.allocateAssign name = some (index, session')) :
    Narrows { st with session := session' } st ∧
      ∃ entry, session'.entryAt index = some entry ∧ entry.name.map toLower = name.map toLower := by
  rcases allocateAssign_eq h with ⟨hfind, rfl⟩ | ⟨-, hfree, rfl⟩
  · exact narrows_findAssign hfind
  · have htakes : Takes st.session _ index (.fresh name) := takes_setSlot hfree rfl
    exact ⟨htakes.narrows, _, htakes.taken, rfl⟩

variable {request : AssignRequest} {change : Name → Assign → Option Assign}

theorem Targets.narrows {st₀ : PathState} (h : Targets request st name index st₀ n change) :
    Narrows st₀ st ∧ ∃ entry, st₀.session.entryAt index = some entry ∧
      entry.name.map toLower = name.map toLower := by
  cases h with
  | removeItem _ hfind => exact narrows_findAssign hfind
  | add _ _ _ hfind => exact narrows_findAssign hfind
  | set _ _ hal => exact allocateAssign_narrows hal

theorem leads_of_creates (h : request.Creates) (st : PathState) (name : Name) :
    request.leads st name = if request.has (assignPath ||| assignDefer) then
      (nextName request.value).toList else st.cat.aliasNames := by
  obtain ⟨-, hrem, hitem, hadd⟩ := h
  unfold AssignRequest.leads
  rw [hrem, hitem, hadd]
  rfl

variable {errno : Option Errno}

/-- **What a request can link.** Every link after it was there before, or goes from the assign of
the request to one of the names the request leads to. -/
theorem handleAssign_links {status : Option Errno}
    (h : handleAssign z host fuel errno request st = some (status, st'))
    (hl : Links st'.session a b) :
    Links st.session a b ∨ ∃ name, request.assignName = some name ∧ a = name.map toLower ∧
      b ∈ request.leads st name := by
  cases handleAssign_step h with
  | unchanged => exact Or.inl hl
  | removed hname hfind =>
    rcases links_setSlot hl with ⟨entry, hnone, -⟩ | hold
    · exact nomatch hnone
    · exact Or.inl hold
  | tooLong hname hcreates hal => exact Or.inl ((allocateAssign_narrows hal).1.links a b hl)
  | stored type hname hcreates htext hal =>
    obtain ⟨hnarrow, entry, hent, hsame⟩ := allocateAssign_narrows hal
    rcases links_updateEntry hent hl with ⟨entry', hchange, ha, hb⟩ | hold
    · obtain rfl := some.inj hchange
      refine Or.inr ⟨_, hname, ha.symm.trans hsame, ?_⟩
      obtain ⟨text, hmem, hnext⟩ := mem_filterMap.mp hb
      obtain rfl := mem_singleton.mp hmem
      rw [leads_of_creates hcreates, if_pos htext]
      exact mem_toList.mpr hnext
    · exact Or.inl (hnarrow.links a b hold)
  | refused hname htgts hcanon =>
    have hold := (canonicalAssignTarget_spec hcanon).1.links a b hl
    exact Or.inl (htgts.narrows.1.links a b hold)
  | @changed name target index _ _ _ _ hname htgts hcanon =>
  obtain ⟨hbefore, entry, hent, hsame⟩ := htgts.narrows
  obtain ⟨hnarrow, halias⟩ := canonicalAssignTarget_spec hcanon
  obtain ⟨type, hentry₁⟩ := hnarrow.entries index entry hent
  rcases links_updateEntry hentry₁ hl with ⟨entry', hchange, ha, hb⟩ | hold
  · cases htgts with
    | removeItem hitem hfind =>
      obtain ⟨hkept, hsub⟩ := nextNames_removeTarget hchange
      rw [hkept] at ha
      exact Or.inl ⟨entry, mem_assigns_of_entryAt hent, ha, hsub hb⟩
    | add hrem hitem hadd hfind =>
      obtain rfl := some.inj hchange
      refine Or.inr ⟨name, hname, ha.symm.trans hsame, ?_⟩
      unfold AssignRequest.leads
      rw [hrem, hitem, hadd]
      refine mem_append.mpr ((nextNames_addTarget hb).imp (halias target b rfl) fun hkept => ?_)
      unfold Session.targetsOf
      rw [hfind, bind_some, hent]
      exact hkept
    | set hcreates hplain hal =>
      obtain rfl := some.inj hchange
      refine Or.inr ⟨name, hname, ha.symm.trans hsame, ?_⟩
      obtain ⟨text, hmem, hnext⟩ := mem_filterMap.mp hb
      obtain rfl := mem_singleton.mp hmem
      rw [leads_of_creates hcreates, hplain]
      exact halias _ b rfl hnext
  · exact Or.inl (hbefore.links a b (hnarrow.links a b hold))

/-! ## Requests return -/

theorem withTarget_isSome (h : (resolvePath z host n fuel st value).isSome) :
    (withTarget z host fuel st value n index change).isSome := by
  obtain ⟨⟨r, st₁⟩, hr⟩ := isSome_iff_exists.mp h
  unfold withTarget canonicalAssignTarget
  rw [hr]
  cases r with
  | error e => rfl
  | ok path =>
  simp only
  cases host.stat path with
  | error e => rfl
  | ok information =>
  simp only
  split_ifs
  · cases nameFromHostWithMappings z host st₁.cat path pathMax <;> rfl
  · rfl

theorem handleAssign_isSome
    (h : ∀ st₁, Narrows st₁ st → ∀ n, (resolvePath z host n fuel st₁ request.value).isSome) :
    (handleAssign z host fuel errno request st).isSome := by
  unfold handleAssign
  by_cases hhost : request.has pathHost = true
  · rw [if_pos hhost]
    rfl
  rw [if_neg hhost]
  cases request.assignName with
  | none => rfl
  | some name =>
  simp only
  by_cases hrem : request.has assignRemove = true
  · rw [if_pos hrem]
    cases st.session.findAssign name <;> rfl
  rw [if_neg hrem]
  by_cases hitem : request.has assignRemoveItem = true
  · rw [if_pos hitem]
    unfold handleRemoveItem
    cases st.session.findAssign name with
    | none => rfl
    | some index => exact withTarget_isSome (h st (Narrows.refl st) _)
  rw [if_neg hitem]
  by_cases hadd : request.has (assignAdd ||| assignPrepend) = true
  · rw [if_pos hadd]
    unfold handleAddItem
    cases st.session.findAssign name with
    | none => rfl
    | some index =>
    simp only
    split
    · rfl
    · exact withTarget_isSome (h st (Narrows.refl st) _)
  rw [if_neg hadd]
  unfold handleSet
  cases hal : st.session.allocateAssign name with
  | none => rfl
  | some slot =>
  simp only
  by_cases htext : request.has (assignPath ||| assignDefer) = true
  · rw [if_pos htext]
    split <;> rfl
  · rw [if_neg htext]
    exact withTarget_isSome (h _ (allocateAssign_narrows hal).1 _)

/-! ## Runs -/

def AssignRequest.ClosesNoCycle (request : AssignRequest) (st : PathState) : Prop :=
  ∀ name, request.assignName = some name → ∀ b ∈ request.leads st name,
    ¬ ReflTransGen (Links st.session) b (name.map toLower)

/-- The states that runs of requests reach, each ASSIGN request meeting `ok`; the file system, the
current directory and the devices may change in between. -/
inductive SessionReachable (z : Zlib) (ok : AssignRequest → PathState → Prop) : PathState → Prop
  | start (host : Host) (cwd systemRoot volatilePath : Name) (cat : Catalog) :
      SessionReachable z ok
        ⟨(Session.cleared cwd).seedBootAssigns host systemRoot volatilePath, cat⟩
  | assign {st st' : PathState} (host : Host) {fuel : ℕ} {errno status : Option Errno}
      {request : AssignRequest} (hst : SessionReachable z ok st) (hok : ok request st)
      (hstep : handleAssign z host fuel errno request st = some (status, st')) :
      SessionReachable z ok st'
  | resolve {st st' : PathState} (host : Host) {n fuel : ℕ} {input : Name}
      {result : Except Errno Name} (hst : SessionReachable z ok st)
      (hstep : resolvePath z host n fuel st input = some (result, st')) :
      SessionReachable z ok st'
  | move {st : PathState} (cwd : Name) (cat : Catalog) (hst : SessionReachable z ok st) :
      SessionReachable z ok ⟨{ st.session with cwd := cwd }, cat⟩

theorem links_setDirectoryAssign (h : Links (session.setDirectoryAssign host name path) a b)
    : Links session a b := by
  rcases setDirectoryAssign_eq host session name path with
    heq | ⟨index, slot, entry, -, heq, -, hent⟩ <;> rw [heq] at h
  · exact h
  refine links_of_setSlot (fun b hb => ?_) h
  have hleads : entry.nextNames = [] := by
    rcases hent with ⟨-, -, rfl⟩ | rfl <;> rfl
  rw [hleads] at hb
  simp at hb

theorem seedBootAssigns_rule {P : Session → Prop}
    (hset : ∀ session name path, P session → P (session.setDirectoryAssign host name path))
    (systemRoot volatilePath : Name) (h : P session) :
    P (session.seedBootAssigns host systemRoot volatilePath) := by
  have hboot : ∀ session name drawer, P session →
      P (session.addBootAssign host systemRoot name drawer) := by
    intro session name drawer hP
    unfold Session.addBootAssign
    simp only
    split_ifs <;> exact hset _ _ _ hP
  have hmade : ∀ session root name drawer, P session →
      P (session.addMadeAssign host root name drawer) := by
    intro session root name drawer hP
    unfold Session.addMadeAssign
    simp only
    split_ifs
    · exact hset _ _ _ hP
    · exact hP
  have hsys := hset _ (ascii "SYS") systemRoot h
  have hdrawers := hboot _ (ascii "FONTS") (ascii "Fonts") <| hboot _ (ascii "S") (ascii "S") <|
    hboot _ (ascii "L") (ascii "L") <| hboot _ (ascii "DEVS") (ascii "Devs") <|
    hboot _ (ascii "LIBS") (ascii "Libs") <| hboot _ (ascii "C") (ascii "C") hsys
  have hall := hmade _ volatilePath (ascii "T") (ascii "t") <|
    hmade _ volatilePath (ascii "ENV") (ascii "env") <|
    hmade _ systemRoot (ascii "ENVARC") (ascii "Prefs/Env-Archive") hdrawers
  unfold Session.seedBootAssigns
  split
  · exact hall
  · exact hset _ _ _ hall

theorem not_links_boot (cwd systemRoot volatilePath a b : Name) :
    ¬ Links ((Session.cleared cwd).seedBootAssigns host systemRoot volatilePath) a b := by
  have hset : ∀ session name path, ¬ Links session a b →
      ¬ Links (session.setDirectoryAssign host name path) a b :=
    fun _ _ _ hno h => hno (links_setDirectoryAssign h)
  refine seedBootAssigns_rule hset systemRoot volatilePath ?_
  rintro ⟨entry, hmem, -⟩
  have := eq_of_mem_replicate hmem
  simp at this

theorem acyclic_of_reachable (h : SessionReachable z AssignRequest.ClosesNoCycle st) :
    Acyclic (Links st.session) := by
  induction h with
  | start host cwd systemRoot volatilePath cat =>
    exact ⟨fun a => ⟨a, fun b hab => (not_links_boot _ _ _ _ _ hab).elim⟩⟩
  | @assign st st' host fuel errno status request hst hok hstep ih =>
    cases hname : request.assignName with
    | none =>
      refine ih.mono fun a b hl => ?_
      rcases handleAssign_links hstep hl with hold | ⟨name, hsome, -⟩
      · exact hold
      · rw [hname] at hsome
        simp at hsome
    | some name =>
    have hlinks : ∀ a b, Links st'.session a b → Links st.session a b ∨
        (a = name.map toLower ∧ b ∈ request.leads st name) := by
      intro a b hl
      refine (handleAssign_links hstep hl).imp_right ?_
      rintro ⟨name', hsome, ha, hb⟩
      obtain rfl := some.inj (hname.symm.trans hsome)
      exact ⟨ha, hb⟩
    refine ih.update (v := name.map toLower) (fun a b hne hl => ?_) fun b hl => ?_
    · exact (hlinks a b hl).resolve_right fun hnew => hne hnew.1
    · exact (hlinks _ b hl).imp_right fun hnew => hok name hname b hnew.2
  | resolve host hst hstep ih =>
    exact ih.mono fun a b hl => (resolvePath_narrows _ _ hstep).links a b hl
  | move cwd cat hst ih => exact ih

/-- **Path resolution terminates.** In every state a session reaches by requests none of which
closes a cycle, every path resolves, or fails to, after finitely many calls, and every ASSIGN
request is answered. -/
theorem resolvePath_terminates (z : Zlib) {st : PathState}
    (hst : SessionReachable z AssignRequest.ClosesNoCycle st) (host : Host) :
    (∀ n input, ∃ bound, ∀ fuel ≥ bound, (resolvePath z host n fuel st input).isSome) ∧
      ∀ errno request, ∃ bound, ∀ fuel ≥ bound,
        (handleAssign z host fuel errno request st).isSome := by
  have hac := acyclic_of_reachable hst
  refine ⟨fun n input => ?_, fun errno request => ?_⟩
  · obtain ⟨bound, hbound⟩ := @resolvePath_returns z host st hac input
    exact ⟨bound, fun fuel hfuel => hbound fuel hfuel st (Narrows.refl st) n⟩
  · obtain ⟨bound, hbound⟩ := @resolvePath_returns z host st hac request.value
    exact ⟨bound, fun fuel hfuel =>
      handleAssign_isSome fun st₁ hst₁ n => hbound fuel hfuel st₁ hst₁ n⟩

def bootState : PathState :=
  ⟨(Session.cleared rootPath).seedBootAssigns flatHost (ascii "/sys") (ascii "/run"), emptyCatalog⟩

/-- `ASSIGN WORK: S: DEFER` leaves a session in which every path resolves. -/
theorem resolvePath_terminates_work :
    ∃ st, handleAssign storedZlib flatHost 0 none ⟨ascii "WORK:", ascii "S:", assignDefer⟩
        bootState = some (none, st) ∧
      ∀ n input, ∃ bound, ∀ fuel ≥ bound,
        (resolvePath storedZlib flatHost n fuel st input).isSome := by
  have hstatus : (handleAssign storedZlib flatHost 0 none
      ⟨ascii "WORK:", ascii "S:", assignDefer⟩ bootState).map Prod.fst = some none := by
    decide +kernel
  obtain ⟨⟨status, st⟩, hstep, rfl⟩ := map_eq_some_iff.mp hstatus
  have hok : AssignRequest.ClosesNoCycle ⟨ascii "WORK:", ascii "S:", assignDefer⟩ bootState := by
    have hwork : AssignRequest.assignName ⟨ascii "WORK:", ascii "S:", assignDefer⟩ =
        some (ascii "WORK") := by decide +kernel
    have hleads : AssignRequest.leads ⟨ascii "WORK:", ascii "S:", assignDefer⟩ bootState
        (ascii "WORK") = [ascii "s"] := by decide +kernel
    intro name hname b hb hreach
    rw [← some.inj (hwork.symm.trans hname)] at hb hreach
    rw [hleads, mem_singleton] at hb
    rw [hb] at hreach
    -- the boot assigns have no links, so a walk has no step
    rcases ReflTransGen.cases_tail hreach with heq | ⟨c, -, hlink⟩
    · revert heq
      decide
    · exact @not_links_boot flatHost rootPath (ascii "/sys") (ascii "/run") c _ hlink
  have hstart : SessionReachable storedZlib AssignRequest.ClosesNoCycle bootState :=
    .start flatHost rootPath (ascii "/sys") (ascii "/run") emptyCatalog
  have hreach : SessionReachable storedZlib AssignRequest.ClosesNoCycle st :=
    .assign flatHost hstart hok hstep
  exact ⟨st, hstep, (resolvePath_terminates storedZlib hreach flatHost).1⟩

theorem resolvePath_self (hfind : st.session.findAssign name = some index)
    (hent : st.session.entryAt index = some entry) (hbacked : entry.hostBacked = false)
    (htexts : entry.texts = [name ++ [colon]]) (hne : name ≠ []) (hcolon : colon ∉ name)
    (hlen : name.length < maxName) :
    ∀ fuel n, resolvePath z host n fuel st (name ++ [colon]) = none := by
  intro fuel
  induction fuel with
  | zero => exact fun _ => rfl
  | succ fuel ih =>
  intro n
  have htake : (name ++ [colon]).takeWhile (· != colon) = name := takeWhile_bne_append hcolon []
  have hrepair : st.session.repairClips host name = st.session := by
    unfold Session.repairClips
    rw [hfind]
    simp
  have htgts : (if entry.targets = [] then [entry.root] else entry.targets) =
      [name ++ [colon]] := htexts
  unfold resolvePath
  rw [if_neg (head?_named hne hcolon []), htake, if_pos ⟨by simp, hlen⟩]
  unfold resolveNamed
  simp only [hrepair, hfind, hent]
  unfold resolveAssignTarget
  rw [htgts, hbacked]
  unfold tryTargets
  rw [if_neg (by simp)]
  simp only [Bool.false_eq_true, if_false, ih pathMax]

/-- `ASSIGN A: A: DEFER` is accepted, and from then on `A:` is resolved for ever. -/
theorem deferred_to_itself :
    ∃ st, SessionReachable storedZlib (fun _ _ => True) st ∧
      ∀ fuel, resolvePath storedZlib flatHost pathMax fuel st (ascii "A:") = none := by
  have hfacts : (handleAssign storedZlib flatHost 0 none ⟨ascii "A:", ascii "A:", assignDefer⟩
      bootState).map (fun reply => (reply.2.session.findAssign (ascii "A"),
        reply.2.session.entryAt 10)) =
      some (some 10, some ⟨ascii "A", ascii "A:", [], .late, false⟩) := by
    decide +kernel
  obtain ⟨⟨status, st⟩, hstep, hst⟩ := map_eq_some_iff.mp hfacts
  simp only [Prod.mk.injEq] at hst
  have hstart : SessionReachable storedZlib (fun _ _ => True) bootState :=
    .start flatHost rootPath (ascii "/sys") (ascii "/run") emptyCatalog
  refine ⟨st, .assign flatHost hstart trivial hstep, fun fuel => ?_⟩
  exact resolvePath_self hst.1 hst.2 rfl rfl (by decide) (by decide) (by decide) fuel pathMax

end AceShell
