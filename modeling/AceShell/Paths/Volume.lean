import AceShell.Paths.Lexical

/-!
# Naming a host path

`nameFromHostWithMappings` spells the components of a host path below its volume one by one, each
against its own parent directory. What it writes is what the decoder, walking from the volume's
root, reads back (`reads_of_mapComponents`).
-/

namespace AceShell

open Text List

variable (z : Zlib) (host : Host)

/-! ## The mapper's loop -/

/-- `append_path_text`. -/
def appendPathText (result text : Name) (resultSize : ℕ) : Except Errno Name :=
  copyOut (result ++
    (if result ≠ [] ∧ result.getLast? ≠ some colon then [slash] else []) ++ text) resultSize

def segments (text : Name) : List Name := (text.splitOn slash).filter (· != [])

/-- The loop of `name_from_host_with_mappings`. A host component that is missing or too long is
taken from the device layer's spelling. -/
def mapComponents (resultSize : ℕ) : Name → Name → List Name → List Name → Except Errno Name
  | result, _, [], _ => .ok result
  | result, parent, raw :: raws, hosts =>
    if pathMax ≤ raw.length then .error .enametoolong
    else
      let component :=
        match hosts with
        | [] => raw
        | h :: _ => if nameMax + 1 ≤ h.length then raw else h
      match mapComponent z (host.listing parent) component (amigaComponentLimit + 1) with
      | .error e => .error e
      | .ok mapped =>
        match appendPathText result mapped resultSize with
        | .error e => .error e
        | .ok result' =>
          if pathMax ≤ parent.length + component.length + 2 then .error .enametoolong
          else
            mapComponents resultSize result'
              (if parent = rootPath then parent ++ component else parent ++ slash :: component)
              raws hosts.tail

/-- `name_from_host_with_mappings`. -/
def nameFromHostWithMappings (cat : Catalog) (path : Name) (resultSize : ℕ) :
    Except Errno Name :=
  match nameFromPath host cat path pathMax with
  | .error e => .error e
  | .ok raw =>
    match normalizePath rootPath path pathMax with
    | .error e => .error e
    | .ok canonical =>
      match volumeRootForPath host cat canonical pathMax with
      | .error e => .error e
      | .ok volumeRoot =>
        if colon ∈ raw then
          let volume := raw.takeWhile (· != colon) ++ [colon]
          if resultSize ≤ volume.length then .error .enametoolong
          else if pathMax ≤ volumeRoot.length then .error .enametoolong
          else
            mapComponents z host resultSize volume volumeRoot
              (segments ((raw.dropWhile (· != colon)).drop 1))
              (segments (canonical.drop volumeRoot.length))
        else .error .einval

variable {z host} {n : ℕ}

/-! ## What the loop writes -/

def joined : List Name → Name
  | [] => []
  | [s] => s
  | s :: t :: rest => s ++ slash :: joined (t :: rest)

variable {s : Name}

theorem splitOn_joined {ss : List Name} (hss : ∀ t ∈ s :: ss, slash ∉ t) :
    (joined (s :: ss)).splitOn slash = s :: ss := by
  induction ss generalizing s with
  | nil => exact splitOn_eq_singleton (hss s mem_cons_self)
  | cons t ss ih =>
    rw [joined, splitOn_append_slash, splitOn_eq_singleton (hss s mem_cons_self),
      ih fun u hu => hss u (mem_cons_of_mem s hu), singleton_append]

def Rooted (path : Name) : Prop := path = rootPath ∨ 1 < path.length

variable {parent : Name}

theorem extend_of_rooted (hp : Rooted parent) (c : Name) :
    (if parent = rootPath then parent ++ c else parent ++ slash :: c) = extend parent c := by
  rcases hp with rfl | hlong
  · rfl
  have hne : parent ≠ rootPath := by
    rintro rfl
    simp [rootPath] at hlong
  rw [if_neg hne, extend_of_long hlong]

variable {c : Name}

theorem rooted_extend (hp : Rooted parent) (hc : c ≠ []) : Rooted (extend parent c) := by
  refine Or.inr (one_lt_length_extend ?_ hc)
  rcases hp with rfl | hlong
  · decide
  · rintro rfl
    simp at hlong

theorem Spells.ne_nil {parent : Option (List Name)} {h : Name} (hn : LinuxName h)
    (hs : Spells z parent h s) : s ≠ [] := by
  cases hs with
  | fixed hs =>
    unfold amigaComponentForHost at hs
    split_ifs at hs <;> (obtain rfl := Option.some.inj hs; decide)
  | plain => exact hn.ne_nil
  | literal => simp
  | compressed => simp

variable {name : Name} {cs : List Name}

theorem mapComponents_cons {result : Name} (hp : Rooted parent) (hc : LinuxName c)
    (hm : mapComponents z host n result parent (c :: cs) (c :: cs) = .ok name) :
    ∃ s, s ≠ [] ∧ (∀ b ∈ s, Spellable b) ∧
      unmapComponent z (host.listing parent) s pathMax = .ok c ∧
      mapComponents z host n (result ++
        (if result ≠ [] ∧ result.getLast? ≠ some colon then [slash] else []) ++ s)
        (extend parent c) cs cs = .ok name := by
  have hlen := hc.length_le
  have hmax : nameMax < pathMax := by decide
  unfold mapComponents at hm
  rw [if_neg (show ¬ pathMax ≤ c.length by omega)] at hm
  simp only [if_neg (show ¬ nameMax + 1 ≤ c.length by omega), extend_of_rooted hp, tail_cons] at hm
  cases hmap : mapComponent z (host.listing parent) c (amigaComponentLimit + 1) with
  | error e => rw [hmap] at hm; simp at hm
  | ok s =>
  rw [hmap] at hm
  simp only at hm
  cases happ : appendPathText result s n with
  | error e => rw [happ] at hm; simp at hm
  | ok result' =>
  rw [happ] at hm
  simp only at hm
  by_cases hroom : pathMax ≤ parent.length + c.length + 2
  · rw [if_pos hroom] at hm
    simp at hm
  rw [if_neg hroom] at hm
  obtain ⟨-, rfl⟩ := copyOut_eq_ok.mp happ
  have hs : Spells z ((host.opendir parent).map Directory.stream) c s := spells_of_map hmap
  exact ⟨s, hs.ne_nil hc, hs.component.2, hs.unmap hc (by decide), hm⟩

theorem getLast?_ne_colon {s : Name} (hs : s ≠ []) (hspell : ∀ b ∈ s, Spellable b) (front : Name) :
    (front ++ s).getLast? ≠ some colon := by
  rw [getLast?_append_of_ne_nil _ hs]
  intro hcolon
  exact (hspell colon (mem_of_getLast? hcolon)).1 rfl

theorem reads_of_mapComponents_tail :
    ∀ {cs : List Name} {result parent name : Name}, Rooted parent → (∀ c ∈ cs, LinuxName c) →
      result ≠ [] → result.getLast? ≠ some colon →
      mapComponents z host n result parent cs cs = .ok name →
      ∃ ss, Reads z host parent ss cs ∧ (∀ s ∈ ss, ∀ b ∈ s, Spellable b) ∧
        name = result ++ (ss.map (slash :: ·)).flatten := by
  intro cs
  induction cs with
  | nil =>
    intro result parent name _ _ _ _ hm
    refine ⟨[], trivial, by simp, ?_⟩
    simpa using (Except.ok.inj hm).symm
  | cons c cs ih =>
  intro result parent name hp hcs hne hlast hm
  have hc := hcs c mem_cons_self
  obtain ⟨s, hs, hspell, hu, hrest⟩ := mapComponents_cons hp hc hm
  rw [if_pos ⟨hne, hlast⟩] at hrest
  obtain ⟨ss, hr, hsp, rfl⟩ := ih (rooted_extend hp hc.ne_nil)
    (fun d hd => hcs d (mem_cons_of_mem c hd)) (by simp)
    (getLast?_ne_colon hs hspell _) hrest
  refine ⟨s :: ss, ⟨hs, hu, hr⟩, ?_, by simp⟩
  exact forall_mem_cons.mpr ⟨hspell, hsp⟩

theorem flatten_eq_joined (s : Name) (ss : List Name) :
    s ++ (ss.map (slash :: ·)).flatten = joined (s :: ss) := by
  induction ss generalizing s with
  | nil => simp [joined]
  | cons t ss ih =>
    rw [joined, ← ih t]
    simp

/-- **What the mapper writes behind a volume name, the decoder reads back.** -/
theorem reads_of_mapComponents {volume : Name} (hp : Rooted parent) (hcs : ∀ c ∈ cs, LinuxName c)
    (hm : mapComponents z host n (volume ++ [colon]) parent cs cs = .ok name) :
    ∃ ss, Reads z host parent ss cs ∧ (∀ s ∈ ss, ∀ b ∈ s, Spellable b) ∧
      name = volume ++ colon :: joined ss := by
  cases cs with
  | nil =>
    refine ⟨[], trivial, by simp, ?_⟩
    exact (Except.ok.inj hm).symm
  | cons c cs =>
  have hc := hcs c mem_cons_self
  obtain ⟨s, hs, hspell, hu, hrest⟩ := mapComponents_cons hp hc hm
  obtain ⟨ss, hr, hsp, rfl⟩ := reads_of_mapComponents_tail (rooted_extend hp hc.ne_nil)
    (fun d hd => hcs d (mem_cons_of_mem c hd)) (by simp)
    (getLast?_ne_colon hs hspell _) hrest
  refine ⟨s :: ss, ⟨hs, hu, hr⟩, ?_, ?_⟩
  · exact forall_mem_cons.mpr ⟨hspell, hsp⟩
  · rw [← flatten_eq_joined]
    simp

end AceShell
