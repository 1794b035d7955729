import AceShell.Lib.Text

/-!
# Names, limits and error codes

The constants of `broker.c`, the error codes it reports through `errno`, and the Linux side of
naming: what a directory entry may be called and what `readdir` hands out for a directory. What is
named after a function or constant of the source has its name in camel case.
-/

namespace AceShell

open Text

abbrev Name := List UInt8

/-! ## Limits -/

/-- `NAME_MAX`. -/
def nameMax : ℕ := 255

/-- `PATH_MAX`. -/
def pathMax : ℕ := 4096

/-- `AMIGA_COMPONENT_LIMIT`: what a FileInfoBlock has room for. -/
def amigaComponentLimit : ℕ := 107

/-! ## Characters -/

def colon : UInt8 := 58

def slash : UInt8 := 47

/-- `MAPPED_MARKER`, the caret that opens an escape. -/
def mappedMarker : UInt8 := 94

def zeroDigit : UInt8 := 48

/-! ## Errors -/

inductive Errno
  | eperm | enoent | esrch | eio | eacces | eexist | enodev | enotdir | einval | enospc
  | enametoolong | enotsup | enotconn | ealready | exdev | eproto | enomem | eloop | eoverflow
  | eisdir | enosys | eother
  deriving DecidableEq

/-! ## The Linux side -/

def dotName : Name := ascii "."

def dotDotName : Name := ascii ".."

structure LinuxName (name : Name) : Prop where
  ne_nil : name ≠ []
  length_le : name.length ≤ nameMax
  nul_notMem : 0 ∉ name
  slash_notMem : slash ∉ name
  ne_dot : name ≠ dotName
  ne_dotDot : name ≠ dotDotName

instance (name : Name) : Decidable (LinuxName name) :=
  decidable_of_iff (name ≠ [] ∧ name.length ≤ nameMax ∧ 0 ∉ name ∧ slash ∉ name ∧
      name ≠ dotName ∧ name ≠ dotDotName)
    ⟨fun ⟨a, b, c, d, e, f⟩ => ⟨a, b, c, d, e, f⟩, fun ⟨a, b, c, d, e, f⟩ => ⟨a, b, c, d, e, f⟩⟩

/-- A directory as `readdir` presents it: its entries in any order, with the two dot names
anywhere among them. -/
structure Directory where
  stream : List Name
  valid : ∀ name ∈ stream, name = dotName ∨ name = dotDotName ∨ LinuxName name

/-- The directory with the given entries, listed after the two dot names. -/
def Directory.ofNames (names : List Name) (h : ∀ name ∈ names, LinuxName name) : Directory where
  stream := dotName :: dotDotName :: names
  valid := by
    intro name hm
    rcases List.mem_cons.mp hm with rfl | hm
    · exact Or.inl rfl
    rcases List.mem_cons.mp hm with rfl | hm
    · exact Or.inr (Or.inl rfl)
    · exact Or.inr (Or.inr (h name hm))

/-- `name` is one of the directory's entries. -/
def Directory.IsEntry (dir : Directory) (name : Name) : Prop :=
  name ∈ dir.stream ∧ LinuxName name

end AceShell
