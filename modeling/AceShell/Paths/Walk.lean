import AceShell.Paths.Containment

/-!
# Host paths as lists of components

A lexically normalized host path is its list of components. `pathOf` writes such a list the way
the code's loops do, one component behind the other; `Reads` says that the decoder, walking from
a directory, turns one list of component texts into another. A walk that succeeds reads
something (`reads_of_walk`), and what is read is what the walk returns (`Reads.walk`).
-/

namespace AceShell

open Text List

variable {z : Zlib} {host : Host} {n : ℕ}

/-! ## Writing a path -/

def extend (path component : Name) : Name := path ++ separatorFor path ++ component

def pathOf (start : Name) (components : List Name) : Name := components.foldl extend start

@[simp] theorem pathOf_nil (start : Name) : pathOf start [] = start := rfl

@[simp] theorem pathOf_cons (start c : Name) (cs : List Name) :
    pathOf start (c :: cs) = pathOf (extend start c) cs := rfl

theorem pathOf_append (start : Name) (xs ys : List Name) :
    pathOf start (xs ++ ys) = pathOf (pathOf start xs) ys := foldl_append

theorem pathOf_concat (start c : Name) (cs : List Name) :
    pathOf start (cs ++ [c]) = extend (pathOf start cs) c := by
  rw [pathOf_append, pathOf_cons, pathOf_nil]

theorem prefix_pathOf (start : Name) (cs : List Name) : start <+: pathOf start cs := by
  induction cs generalizing start with
  | nil => exact prefix_rfl
  | cons c cs ih =>
  refine List.IsPrefix.trans ?_ (ih (extend start c))
  unfold extend
  rw [append_assoc]
  exact prefix_append _ _

theorem length_le_pathOf (start : Name) (cs : List Name) :
    start.length ≤ (pathOf start cs).length := (prefix_pathOf start cs).length_le

theorem length_le_extend (path c : Name) : path.length ≤ (extend path c).length :=
  length_le_pathOf path [c]

variable {path c : Name}

theorem one_lt_length_extend (hp : path ≠ []) (hc : c ≠ []) : 1 < (extend path c).length := by
  have := length_pos_iff.mpr hp
  have := length_pos_iff.mpr hc
  unfold extend
  simp only [length_append]
  omega

theorem extend_of_long (hp : 1 < path.length) (c : Name) : extend path c = path ++ slash :: c := by
  unfold extend separatorFor
  rw [if_pos hp, append_assoc, singleton_append]

theorem extend_root (c : Name) : extend rootPath c = slash :: c := rfl

/-! ## The components of a path -/

def Plain (c : Name) : Prop := c ≠ [] ∧ slash ∉ c

theorem splitOn_append_slash (a b : Name) :
    (a ++ slash :: b).splitOn slash = a.splitOn slash ++ b.splitOn slash := by
  exact splitOnP_append_cons a b (by simp)

variable {start : Name} {cs : List Name}

theorem splitOn_pathOf (hs : 1 < start.length) (hcs : ∀ c ∈ cs, Plain c) :
    (pathOf start cs).splitOn slash = start.splitOn slash ++ cs := by
  induction cs generalizing start with
  | nil => simp
  | cons c cs ih =>
  rw [pathOf_cons, ih (hs.trans_le (length_le_extend start c))
      fun d hd => hcs d (mem_cons_of_mem c hd), extend_of_long hs, splitOn_append_slash,
    splitOn_eq_singleton (hcs c mem_cons_self).2, append_assoc, singleton_append]

theorem splitOn_pathOf_root (hcs : ∀ d ∈ c :: cs, Plain d) :
    (pathOf rootPath (c :: cs)).splitOn slash = [] :: c :: cs := by
  have hc := hcs c mem_cons_self
  have hsplit : (slash :: c).splitOn slash = [[], c] := by
    have h := splitOn_append_slash [] c
    rwa [splitOn_eq_singleton hc.2] at h
  rw [pathOf_cons, splitOn_pathOf (one_lt_length_extend (by decide) hc.1)
      fun d hd => hcs d (mem_cons_of_mem c hd), extend_root, hsplit]
  rfl

/-! ## Reading a path -/

/-- Walking from `start`, the decoder reads the component texts as the given components. -/
def Reads (z : Zlib) (host : Host) : Name → List Name → List Name → Prop
  | _, [], [] => True
  | start, s :: ss, c :: cs =>
    s ≠ [] ∧ unmapComponent z (host.listing start) s pathMax = .ok c ∧
      Reads z host (extend start c) ss cs
  | _, _, _ => False

variable {ss : List Name}

theorem Reads.walk (hr : Reads z host start ss cs) (hfit : (pathOf start cs).length < n) :
    walkMapped z host n start ss = .ok (pathOf start cs) := by
  fun_induction Reads z host start ss cs with
  | case1 => rfl
  | case3 => exact absurd hr id
  | case2 start s ss c cs ih =>
  obtain ⟨hs, hu, hrest⟩ := hr
  have hext : (extend start c).length < n := (length_le_pathOf _ cs).trans_lt hfit
  have happ : appendComponent start c n = .ok (extend start c) := copyOut_eq_ok.mpr ⟨hext, rfl⟩
  unfold walkMapped
  rw [if_neg hs, hu]
  simp only
  rw [happ]
  exact ih hrest hfit

theorem reads_of_walk {result : Name} (hne : ∀ s ∈ ss, s ≠ [])
    (hw : walkMapped z host n start ss = .ok result) :
    ∃ cs, Reads z host start ss cs ∧ result = pathOf start cs := by
  induction ss generalizing start with
  | nil => exact ⟨[], trivial, (Except.ok.inj hw).symm⟩
  | cons s ss ih =>
  have hs := hne s mem_cons_self
  unfold walkMapped at hw
  rw [if_neg hs] at hw
  cases hu : unmapComponent z (host.listing start) s pathMax with
  | error e => rw [hu] at hw; simp at hw
  | ok c =>
  rw [hu] at hw
  simp only at hw
  cases ha : appendComponent start c n with
  | error e => rw [ha] at hw; simp at hw
  | ok next =>
  rw [ha] at hw
  obtain ⟨-, rfl⟩ := copyOut_eq_ok.mp ha
  obtain ⟨cs, hcs, hres⟩ := ih (fun t ht => hne t (mem_cons_of_mem s ht)) hw
  exact ⟨c :: cs, ⟨hs, hu, hcs⟩, hres⟩

theorem walkMapped_nil_cons (start : Name) (ss : List Name) :
    walkMapped z host n start ([] :: ss) = walkMapped z host n start ss := by
  rw [walkMapped, if_pos rfl]

end AceShell
