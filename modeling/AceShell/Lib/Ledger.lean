import Mathlib

/-!
# Ledgers of conversations

A carrier opens conversations and ends each one with an answer, by abandoning it, or by forgetting
it with the party that waited. `Kept log open` says that the log, newest entry first, is a possible
history with just the conversations `open` still unanswered: an end belongs to a conversation opened
before it and goes to its own parties (`Kept.justified`), and ends and open conversations together
are those that were opened (`Kept.openedIds_perm`).
-/

namespace Ledger

open List

/-- Who waits for the answer to a message, and who may give it. -/
structure Conversation (ι σ π : Type*) where
  id : ι
  sender : σ
  owner : π
  deriving DecidableEq

/-- One line of the ledger. -/
inductive Entry (ι σ π : Type*)
  | opened (c : Conversation ι σ π)
  | answered (id : ι) (receiver : σ) (replier : π)
  | abandoned (id : ι) (receiver : σ)
  | forgotten (id : ι) (closed : σ)
  deriving DecidableEq

variable {ι σ π : Type*}

/-- The entry ends the conversation, with the parties it was opened with. -/
def Entry.Ends (c : Conversation ι σ π) : Entry ι σ π → Prop
  | .opened _ => False
  | .answered id receiver replier => id = c.id ∧ receiver = c.sender ∧ replier = c.owner
  | .abandoned id receiver => id = c.id ∧ receiver = c.sender
  | .forgotten id closed => id = c.id ∧ closed = c.sender

def Entry.openedId : Entry ι σ π → Option ι
  | .opened c => some c.id
  | _ => none

/-- The conversation an entry ends. -/
def Entry.endedId : Entry ι σ π → Option ι
  | .opened _ => none
  | .answered id _ _ => some id
  | .abandoned id _ => some id
  | .forgotten id _ => some id

def Entry.recordId : Entry ι σ π → Option ι
  | .answered id _ _ => some id
  | .abandoned id _ => some id
  | _ => none

/-- The histories that leave the conversations of the second list unanswered. -/
inductive Kept : List (Entry ι σ π) → List (Conversation ι σ π) → Prop
  | nil : Kept [] []
  | opened {log : List (Entry ι σ π)} {cs : List (Conversation ι σ π)} (c : Conversation ι σ π)
      (h : Kept log cs) : Kept (.opened c :: log) (c :: cs)
  | ended {log : List (Entry ι σ π)} {cs : List (Conversation ι σ π)} {c : Conversation ι σ π}
      {e : Entry ι σ π} (h : Kept log (c :: cs)) (he : e.Ends c) : Kept (e :: log) cs
  | perm {log : List (Entry ι σ π)} {cs ds : List (Conversation ι σ π)} (h : Kept log cs)
      (hp : cs.Perm ds) : Kept log ds

variable {c : Conversation ι σ π} {e : Entry ι σ π} {log : List (Entry ι σ π)}
  {cs ds : List (Conversation ι σ π)}

theorem Entry.Ends.endedId (h : e.Ends c) : e.endedId = some c.id := by
  cases e with
  | opened d => exact h.elim
  | answered id receiver replier => exact congrArg some h.1
  | abandoned id receiver => exact congrArg some h.1
  | forgotten id closed => exact congrArg some h.1

theorem Entry.Ends.openedId (h : e.Ends c) : e.openedId = none := by
  cases e with
  | opened d => exact h.elim
  | _ => rfl

theorem Entry.endedId_of_recordId {id : ι} (h : e.recordId = some id) : e.endedId = some id := by
  cases e <;> first | exact h | simp [Entry.recordId] at h

theorem Kept.end_all {entry : Conversation ι σ π → Entry ι σ π} (hends : ∀ c ∈ cs, (entry c).Ends c)
    (h : Kept log (cs ++ ds)) : Kept ((cs.map entry).reverse ++ log) ds := by
  induction cs generalizing log with
  | nil => exact h
  | cons c cs ih =>
    have hrest := ih (fun d hd => hends d (mem_cons_of_mem c hd)) (h.ended (hends c mem_cons_self))
    rwa [map_cons, reverse_cons, append_assoc]

/-- **Conservation.** What was opened is open or ended. -/
theorem Kept.openedIds_perm (h : Kept log cs) :
    (log.filterMap Entry.openedId).Perm
      (cs.map Conversation.id ++ log.filterMap Entry.endedId) := by
  induction h with
  | nil => exact List.Perm.refl _
  | opened c h ih => exact ih.cons c.id
  | ended h he ih =>
    rw [filterMap_cons_none he.openedId, filterMap_cons_some he.endedId]
    exact ih.trans perm_middle.symm
  | perm h hp ih => exact ih.trans ((hp.map _).append_right _)

/-- **Ends are justified.** An end has the parties of a conversation opened before it. -/
theorem Kept.justified (h : Kept log cs) :
    (∀ c ∈ cs, .opened c ∈ log) ∧
      ∀ newer e older id, log = newer ++ e :: older → e.endedId = some id →
        ∃ c, c.id = id ∧ e.Ends c ∧ .opened c ∈ older := by
  induction h with
  | nil => exact ⟨fun _ hc => by simp at hc, fun _ _ _ _ heq => by simp at heq⟩
  | opened c h ih =>
    refine ⟨fun d hd => ?_, fun newer e older id heq he => ?_⟩
    · rcases mem_cons.mp hd with rfl | hd
      · exact mem_cons_self
      · exact mem_cons_of_mem _ (ih.1 d hd)
    rcases cons_eq_append_iff.mp heq with ⟨-, hcons⟩ | ⟨newer', -, hlog⟩
    · rw [(cons.inj hcons).1] at he
      simp [Entry.endedId] at he
    · exact ih.2 newer' e older id hlog he
  | @ended log cs c e h hends ih =>
    refine ⟨fun d hd => ?_, fun newer e' older id heq he => ?_⟩
    · exact mem_cons_of_mem _ (ih.1 d (mem_cons_of_mem c hd))
    rcases cons_eq_append_iff.mp heq with ⟨-, hcons⟩ | ⟨newer', -, hlog⟩
    · obtain ⟨rfl, rfl⟩ := cons.inj hcons
      refine ⟨c, ?_, hends, ih.1 c mem_cons_self⟩
      exact Option.some.inj (hends.endedId.symm.trans he)
    · exact ih.2 newer' e' older id hlog he
  | perm h hp ih => exact ⟨fun c hc => ih.1 c (hp.mem_iff.mpr hc), ih.2⟩

/-- **At most one end.** When no two conversations were opened under one id, no id is ended twice
and none that is open is ended. -/
theorem Kept.endedIds_nodup (h : Kept log cs) (hopen : (log.filterMap Entry.openedId).Nodup) :
    (log.filterMap Entry.endedId).Nodup ∧ ∀ c ∈ cs, c.id ∉ log.filterMap Entry.endedId := by
  have hnodup := (h.openedIds_perm.nodup_iff).mp hopen
  obtain ⟨-, hended, hdisj⟩ := nodup_append'.mp hnodup
  exact ⟨hended, fun c hc hm => hdisj (mem_map_of_mem hc) hm⟩

theorem recordIds_sublist (log : List (Entry ι σ π)) :
    (log.filterMap Entry.recordId).Sublist (log.filterMap Entry.endedId) := by
  induction log with
  | nil => exact List.Sublist.refl _
  | cons e log ih =>
  cases hrec : e.recordId with
  | none =>
    rw [filterMap_cons_none hrec]
    exact ih.trans ((sublist_cons_self e log).filterMap _)
  | some id =>
    rw [filterMap_cons_some hrec, filterMap_cons_some (Entry.endedId_of_recordId hrec)]
    exact ih.cons_cons id

theorem mem_openedIds (h : .opened c ∈ log) : c.id ∈ log.filterMap Entry.openedId :=
  mem_filterMap.mpr ⟨_, h, rfl⟩

theorem opened_unique (hopen : (log.filterMap Entry.openedId).Nodup) {c d : Conversation ι σ π}
    (hc : .opened c ∈ log) (hd : .opened d ∈ log) (hid : c.id = d.id) : c = d := by
  induction log with
  | nil => simp at hc
  | cons e log ih =>
  have hrest : (log.filterMap Entry.openedId).Nodup :=
    hopen.sublist ((sublist_cons_self e log).filterMap _)
  have hnew : ∀ {x y : Conversation ι σ π}, e = .opened x → .opened y ∈ log → x.id ≠ y.id := by
    rintro x y rfl hy heq
    rw [filterMap_cons_some (by rfl), nodup_cons] at hopen
    exact hopen.1 (heq ▸ mem_openedIds hy)
  rcases mem_cons.mp hc with hce | hc <;> rcases mem_cons.mp hd with hde | hd
  · exact Entry.opened.inj (hce.trans hde.symm)
  · exact absurd hid (hnew hce.symm hd)
  · exact absurd hid.symm (hnew hde.symm hc)
  · exact ih hrest hc hd

/-- **Open or ended.** A conversation that was opened is still open and has no end, or it is over
and has one. -/
theorem Kept.open_or_ended (h : Kept log cs) (hopen : (log.filterMap Entry.openedId).Nodup)
    (hc : .opened c ∈ log) :
    (c ∈ cs ∧ c.id ∉ log.filterMap Entry.endedId) ∨ (c ∉ cs ∧ ∃ e ∈ log, e.Ends c) := by
  have hdisjoint := (h.endedIds_nodup hopen).2
  rcases mem_append.mp (h.openedIds_perm.mem_iff.mp (mem_openedIds hc)) with hin | hended
  · obtain ⟨d, hd, hid⟩ := mem_map.mp hin
    obtain rfl := opened_unique hopen (h.justified.1 d hd) hc hid
    exact .inl ⟨hd, hdisjoint d hd⟩
  obtain ⟨e, he, heid⟩ := mem_filterMap.mp hended
  obtain ⟨newer, older, hlog⟩ := append_of_mem he
  obtain ⟨d, hid, hends, hopened⟩ := h.justified.2 newer e older c.id hlog heid
  have hd : .opened d ∈ log := by
    rw [hlog]
    exact mem_append_right _ (mem_cons_of_mem _ hopened)
  obtain rfl := opened_unique hopen hd hc hid
  exact .inr ⟨fun hin => hdisjoint d hin hended, e, he, hends⟩

end Ledger
