import AceShell.Shell.Session

/-!
# Copies of a session

`AMIGA_BROKER_CLONESESSION` looks for a slot for the child after it has found the parent. When the
table is full, the slot it takes may be the parent's own, which is cleared before it is copied. That
happens exactly if nobody is connected to the parent and no other session without a connection was
used longer ago (`clone_copies_iff`).
-/

namespace AceShell

open List SlotTable Option

/-! ## Statement -/

/-- The slot at `index` is not the one that a new session takes. -/
def Broker.Spares (b : Broker) (index : ℕ) (parent : BrokerSession) : Prop :=
  none ∈ b.sessions ∨ parent.anchors ≠ 0 ∨
    ∃ slot other, slot ≠ index ∧ b.sessions[slot]? = some (some other) ∧ other.anchors = 0 ∧
      (other.lastUsed < parent.lastUsed ∨ other.lastUsed = parent.lastUsed ∧ slot < index)

namespace Shells

/-- The parent is as it was, the child has what the parent has, and no other session that somebody
is connected to has changed. -/
structure Copied (index : ℕ) (id : Name) (s s' : Shells) : Prop where
  parent : s'.broker.sessions[index]? = s.broker.sessions[index]?
  parentData : s'.sessionAt index = s.sessionAt index
  child : ∃ slot session, s'.broker.sessions[slot]? = some (some session) ∧ session.id = id ∧
    s'.sessionAt slot = s.sessionAt index
  others : ∀ slot other, s.broker.sessions[slot]? = some (some other) → other.anchors ≠ 0 →
    s'.broker.sessions[slot]? = some (some other) ∧ s'.sessionAt slot = s.sessionAt slot

/-! ## The slot of the child -/

variable {sys : System} {s : Shells} {index child : ℕ} {id : Name} {parent : BrokerSession}

theorem freeSession_ne_iff (hpar : s.broker.sessions[index]? = some (some parent))
    (hfree : s.broker.freeSession = some child) : child ≠ index ↔ s.broker.Spares index parent := by
  rcases Broker.freeSession_spec hfree with hempty | ⟨hnone, session, hslot, hancs, hleast⟩
  · refine iff_of_true ?_ (.inl (mem_of_getElem? hempty))
    rintro rfl
    exact nomatch hempty.symm.trans hpar
  constructor
  · intro hne
    by_cases hzero : parent.anchors = 0
    · have hle := hleast index parent hpar hzero
      exact .inr (.inr ⟨child, session, hne, hslot, hancs, by omega⟩)
    · exact .inr (.inl hzero)
  rintro hspares rfl
  rw [hslot] at hpar
  obtain rfl := some.inj (some.inj hpar)
  rcases hspares with hmem | hanchored | ⟨slot, other, hne, hother, hzero, hcolder⟩
  · have := findIdx?_eq_none_iff.mp hnone none hmem
    simp at this
  · exact hanchored hancs
  · have hle := hleast slot other hother hzero
    omega

/-- A clone that succeeds puts a new session into the slot, and then copies the parent's slot. -/
theorem cloneSession_ok (hok : (s.cloneSession sys index id).1 = .ok) :
    (∀ session, s.broker.sessions[index]? = some (some session) → session.id ≠ id) ∧
    ∃ child clock, s.broker.freeSession = some child ∧
      (s.cloneSession sys index id).2.broker.sessions =
        s.broker.sessions.set child (some ⟨id, clock, 0⟩) ∧
      (s.cloneSession sys index id).2.data =
        (s.data.set child (.initial sys)).set child
          (((s.data.set child (.initial sys))[index]?).getD .blank) := by
  unfold cloneSession at hok ⊢
  split_ifs at hok ⊢ with hlen hself
  · exact nomatch hok
  · exact nomatch hok
  refine ⟨fun session hsess heq => hself (by simp [hsess, heq]), ?_⟩
  unfold Broker.findSession getSession Broker.getSession at hok ⊢
  cases hidx : s.broker.sessionIndex id with
  | some slot =>
    rw [hidx] at hok
    exact nomatch hok
  | none =>
  cases hfree : s.broker.freeSession with
  | none =>
    rw [hidx, hfree] at hok
    exact nomatch hok
  | some child =>
  have hshort : ¬ sessionIdSize ≤ id.length := fun hlong => hlen (.inr hlong)
  have hlt := (Broker.freeSession_unanchored hfree).1
  obtain ⟨clock, htouch⟩ := @Broker.touchSession_eq
    { s.broker with sessions := s.broker.sessions.set child (some ⟨id, 0, 0⟩) } child _
    (getElem?_set_self hlt)
  refine ⟨child, clock, rfl, ?_⟩
  simp [hshort, htouch, sessionAt]

/-- **A clone is a copy.** A clone that succeeds leaves the parent and every session with a
connection as they are and gives the child all that the parent has, exactly if the parent's slot is
not the one that it takes. -/
theorem clone_copies_iff (sys : System) {s : Shells} {index : ℕ} {id : Name}
    {parent : BrokerSession} (hparent : s.broker.sessions[index]? = some (some parent))
    (hdata : s.data.length = s.broker.sessions.length)
    (hok : (s.cloneSession sys index id).1 = .ok) :
    s.Copied index id (s.cloneSession sys index id).2 ↔ s.broker.Spares index parent := by
  obtain ⟨hother, child, clock, hfree, hsessions, hcopy⟩ := cloneSession_ok hok
  obtain ⟨hlt, hunanchored⟩ := Broker.freeSession_unanchored hfree
  rw [← freeSession_ne_iff hparent hfree]
  constructor
  · rintro hcopied rfl
    have hsame := hcopied.parent
    rw [hsessions, getElem?_set_self hlt, hparent] at hsame
    exact hother parent hparent (by rw [← some.inj (some.inj hsame)])
  intro hne
  have hkept : ∀ slot, slot ≠ child →
      (s.cloneSession sys index id).2.sessionAt slot = s.sessionAt slot := by
    intro slot hslot
    unfold sessionAt
    rw [hcopy, getElem?_set_ne hslot.symm, getElem?_set_ne hslot.symm]
  refine ⟨?_, hkept index hne.symm, ⟨child, ⟨id, clock, 0⟩, ?_, rfl, ?_⟩,
    fun slot other hslot hanchors => ?_⟩
  · rw [hsessions, getElem?_set_ne hne]
  · rw [hsessions, getElem?_set_self hlt]
  · unfold sessionAt
    rw [hcopy, getElem?_set_self (by rwa [length_set, hdata]), getElem?_set_ne hne]
    rfl
  have hslot' : slot ≠ child := by
    rintro rfl
    exact hanchors (hunanchored other hslot)
  exact ⟨by rw [hsessions, getElem?_set_ne hslot'.symm, hslot], hkept slot hslot'⟩

def standalone (slots : ℕ → Option BrokerSession) : Shells where
  broker := { Broker.start with
    sessions := some ⟨Text.ascii "p", 99, 0⟩ :: (range (maxSessions - 1)).map slots }
  data := replicate maxSessions .blank
  globalVars := .cleared
  cat := ⟨[], false⟩

/-- The data of a parent that has been used. -/
def parentData : ShellSession :=
  { ShellSession.initial flatSystem with
    commandPaths := [Text.ascii "/work/c"], returnCode := 5, failLevel := 20
    prompt := Text.ascii "%N> " }

def usedParent : Shells :=
  { standalone fun _ => none with data := parentData :: replicate (maxSessions - 1) .blank }

theorem clone_copies_iff_free :
    let s' := (usedParent.cloneSession flatSystem 0 (Text.ascii "c")).2
    usedParent.Copied 0 (Text.ascii "c") s' ∧ s'.sessionAt 0 = parentData ∧
      s'.sessionAt 1 = parentData := by
  have hspares : usedParent.broker.Spares 0 ⟨Text.ascii "p", 99, 0⟩ :=
    .inl (mem_cons_of_mem _ (mem_map.mpr ⟨0, by decide, rfl⟩))
  exact ⟨(clone_copies_iff flatSystem rfl rfl rfl).mpr hspares, rfl, rfl⟩

def connected (i : ℕ) : Option BrokerSession := some ⟨[UInt8.ofNat (i + 128)], i, 1⟩

/-- All other sessions have a connection, so the parent's slot is taken for its child. -/
theorem clone_takes_parent :
    ((standalone connected).cloneSession flatSystem 0 (Text.ascii "c")).1 = .ok ∧
      ¬ (standalone connected).Copied 0 (Text.ascii "c")
        ((standalone connected).cloneSession flatSystem 0 (Text.ascii "c")).2 := by
  refine ⟨by decide +kernel, fun hcopied => ?_⟩
  exact absurd hcopied.parent (by decide +kernel)

end Shells

end AceShell
