import AceShell.Basic

/-!
# Taking a path apart and putting it together

`FilePart`, `PathPart` and `AddPart` of `native_dos.c`. A pointer into the path is the text from
there on, so that the directory part is what stands before the pointer of `PathPart`.
-/

namespace AceShell.Dos

open List

def isSeparator (c : UInt8) : Bool := c == colon || c == slash

/-- `FilePart`: back from the end to the last separator. -/
def filePart (path : Name) : Name := path.rtakeWhile (!isSeparator ·)

def pathPartLoop (path : Name) : Name → Name
  | [] => path
  | c :: cursor =>
    pathPartLoop (if c = slash then c :: cursor else if c = colon then cursor else path) cursor

def pathPart (path : Name) : Name :=
  let path := path.dropWhile (· == slash)
  pathPartLoop path path

def addPart (dirname filename : Name) (size : ℕ) : Option Name :=
  -- where the file name goes, and whether a slash goes before it
  let (position, addSlash) : ℕ × Bool :=
    match filename.findIdx? (· == colon) with
    | some 0 => ((dirname.findIdx? (· == colon)).getD 0, false)
    | some _ => (0, false)
    | none => (dirname.length, dirname.getLast?.any (!isSeparator ·))
  if size = 0 ∨ size < position + filename.length + 1 + addSlash.toNat then none
  else some (dirname.take position ++ replicate addSlash.toNat slash ++ filename)

/-- What `PathPart` delimits. -/
def directoryPart (path : Name) : Name := path.take (path.length - (pathPart path).length)

section

variable {file : Name} (hf : ∀ c ∈ file, isSeparator c = false)

include hf

theorem pathPartLoop_file (path : Name) : pathPartLoop path file = path := by
  induction file generalizing path with
  | nil => rfl
  | cons c file ih =>
    have hc := hf c mem_cons_self
    simp only [isSeparator, Bool.or_eq_false_iff, beq_eq_false_iff_ne] at hc
    rw [pathPartLoop, if_neg hc.2, if_neg hc.1]
    exact ih (fun b hb => hf b (mem_cons_of_mem c hb)) path

theorem pathPartLoop_slash (path before : Name) :
    pathPartLoop path (before ++ slash :: file) = slash :: file := by
  induction before generalizing path with
  | nil => exact pathPartLoop_file hf _
  | cons c before ih => exact ih _

theorem pathPartLoop_colon (path before : Name) :
    pathPartLoop path (before ++ colon :: file) = file := by
  induction before generalizing path with
  | nil => exact pathPartLoop_file hf _
  | cons c before ih => exact ih _

theorem dropWhile_slash_file : file.dropWhile (· == slash) = file := by
  cases file with
  | nil => rfl
  | cons c file =>
    have hc := hf c mem_cons_self
    rw [isSeparator, Bool.or_eq_false_iff] at hc
    rw [dropWhile_cons_of_neg (by simp [hc.2])]

theorem pathPart_colon (front : Name) : pathPart (front ++ colon :: file) = file := by
  rw [pathPart, dropWhile_append]
  split
  · exact pathPartLoop_colon hf _ []
  · exact pathPartLoop_colon hf _ _

/-- A file name has no colon, so it goes behind the directory. -/
theorem addPart_directoryPart {front back : Name} {size : ℕ} (addSlash : Bool)
    (hpart : pathPart (front ++ back) = back) (hs : front.length + back.length < size)
    (hback : replicate addSlash.toNat slash ++ file = back)
    (hadd : front.getLast?.any (!isSeparator ·) = addSlash) :
    addPart (directoryPart (front ++ back)) file size = some (front ++ back) := by
  have hnone : file.findIdx? (· == colon) = none := by
    refine findIdx?_eq_none_iff.mpr fun c hc => ?_
    exact (Bool.or_eq_false_iff.mp (hf c hc)).1
  have hdir : directoryPart (front ++ back) = front := by simp [directoryPart, hpart]
  subst hback
  simp only [length_append, length_replicate] at hs
  simp only [addPart, hnone, hadd, hdir, take_length]
  rw [if_neg (by omega), append_assoc]

end

/-- Behind a name, a second slash is one of two adjacent ones. -/
theorem two_slashes_inside {front : Name} (h : ∃ c ∈ front, c ≠ slash) :
    ∃ c, c ≠ slash ∧ [c, slash, slash] <:+: front ++ [slash, slash] := by
  induction front using reverseRecOn with
  | nil => simp at h
  | append_singleton front b ih =>
    by_cases hb : b = slash
    · subst hb
      obtain ⟨c, hc, hin⟩ := ih (by simpa using h)
      exact ⟨c, hc, hin.trans ⟨[], [slash], by simp⟩⟩
    · exact ⟨b, hb, front, [], by simp⟩

/-- **Paths come apart and go together.** The directory part and the file part of a path give the
path back, unless a slash stands behind a colon or two slashes stand behind a name. -/
theorem addPart_directoryPart_filePart (path : Name) {size : ℕ} (hsize : path.length < size)
    (hcolon : ¬ [colon, slash] <:+: path)
    (hslash : ∀ c, c ≠ slash → ¬ [c, slash, slash] <:+: path) :
    addPart (directoryPart path) (filePart path) size = some path := by
  have hf : ∀ c ∈ filePart path, isSeparator c = false := fun c hc => by
    simpa using mem_rtakeWhile_imp hc
  have hpath : path.rdropWhile (!isSeparator ·) ++ filePart path = path :=
    rdropWhile_append_rtakeWhile
  have hlast := rdropWhile_last_not (!isSeparator ·) path
  generalize path.rdropWhile (!isSeparator ·) = front, filePart path = file at *
  subst hpath
  rw [length_append] at hsize
  rcases front.eq_nil_or_concat' with rfl | ⟨front, c, rfl⟩
  · refine @addPart_directoryPart _ hf [] file size false ?_ hsize rfl rfl
    rw [nil_append, pathPart, dropWhile_slash_file hf, pathPartLoop_file hf]
  have hsep : c ≠ colon → c = slash := by simpa [isSeparator] using hlast (by simp)
  by_cases hlead : c = colon ∨ ∀ b ∈ front, b = slash
  · refine addPart_directoryPart hf false ?_ hsize rfl (by simpa [isSeparator] using hsep)
    by_cases hc : c = colon
    · subst hc
      simpa using pathPart_colon hf front
    have hall : ∀ b ∈ front ++ [c], (b == slash) = true := by
      simpa [hsep hc, or_imp, forall_and] using hlead.resolve_left hc
    rw [pathPart, dropWhile_append_of_pos hall, dropWhile_slash_file hf, pathPartLoop_file hf]
  · -- the last slash is behind a name, and `AddPart` puts it back
    rw [not_or, not_forall₂] at hlead
    obtain rfl := hsep hlead.1
    have hpart : pathPart (front ++ slash :: file) = slash :: file := by
      rw [pathPart, dropWhile_append, if_neg (by simpa using hlead.2)]
      exact pathPartLoop_slash hf _ _
    rw [append_assoc] at *
    rw [length_append, Nat.add_assoc, Nat.add_comm [slash].length] at hsize
    refine addPart_directoryPart hf true hpart hsize rfl ?_
    rcases front.eq_nil_or_concat' with rfl | ⟨front, b, rfl⟩
    · simp at hlead
    have hb : b ≠ colon := by
      rintro rfl
      exact hcolon ⟨front, file, by simp⟩
    have hb' : b ≠ slash := by
      rintro rfl
      obtain ⟨c, hc, hin⟩ := @two_slashes_inside front (by simpa using hlead.2)
      exact hslash c hc (hin.trans ⟨[], file, by simp⟩)
    simp [isSeparator, hb, hb']

/-- A path behind two parent steps. -/
theorem addPart_parents : addPart (directoryPart (Text.ascii "//dir/name")) (Text.ascii "name") 11 =
    some (Text.ascii "//dir/name") := by
  rw [show Text.ascii "name" = filePart (Text.ascii "//dir/name") by decide +kernel]
  exact addPart_directoryPart_filePart _ (by decide +kernel) (by decide +kernel)
    (@Text.forall_byte _ (by decide +kernel))

end AceShell.Dos
