import AceShell.Lib.Text
import AceShell.Lib.BigEndian
import AceShell.Lib.Loop

/-!
# The store of the clipboard units and the host clipboard

After `clipboard_bridge.c`. The clip of each unit is a file that all ACE processes share. Unit 0 is
mirrored with the text clipboard of the host: committing a clip that is text publishes the text, and
refreshing makes a clip of the host's text when that differs. The host clipboard is a file, or what
the clipboard programs of the desktop give and take; those are not part of the repository.
-/

namespace AceShell.Clipboard

open BigEndian Text Loop

/-- `ACE_CLIPBOARD_MAX_SIZE` -/
def maxSize : ℕ := 64 * 1024 * 1024

/-! ## Text clips -/

structure Scan where
  position : ℕ
  text : List UInt8 := []
  found : Bool := false
  bad : Bool := false

variable (data : List UInt8)

/-- One round of the loop of `extract_text`: a chunk, or the end of the clip. -/
def extractStep (s : Scan) : Bool × Scan :=
  if data.length ≤ s.position then (false, s)
  else if data.length - s.position < 8 then (false, { s with bad := true })
  else
    let length := (read32 (data.drop (s.position + 4))).toNat
    if data.length - s.position - 8 < length then (false, { s with bad := true })
    else
      let chrs := (data.drop s.position).take 4 == ascii "CHRS"
      let next : Scan :=
        { position := s.position + 8 + length + length % 2
          text := if chrs then s.text ++ (data.drop (s.position + 8)).take length else s.text
          found := s.found || chrs }
      if data.length < next.position then (false, { next with bad := true }) else (true, next)

/-- `extract_text`: the contents of all CHRS chunks of an FTXT clip, up to the end of the data,
whatever the size of the FORM. -/
def extractText : Option (List UInt8) :=
  if data.length < 12 ∨ data.take 4 ≠ ascii "FORM" ∨ (read32 (data.drop 4)).toNat < 4 ∨
      data.length < (read32 (data.drop 4)).toNat + 8 ∨ (data.drop 8).take 4 ≠ ascii "FTXT" then
    none
  else
    let s := run (extractStep data) (data.length + 1) { position := 12 }
    if s.bad || !s.found then none else some s.text

/-- Each chunk takes the scan on by the eight bytes of its header at least. -/
theorem falls_extractStep :
    Falls (fun _ => True) (fun s => data.length - s.position) (extractStep data) := by
  intro s _ h
  unfold extractStep at h ⊢
  grind

/-- `make_text_clip` -/
def makeTextClip (text : List UInt8) : Option (List UInt8) :=
  let padding := text.length % 2
  if maxSize - 20 - padding < text.length then none
  else
    some (ascii "FORM" ++ write32 (UInt32.ofNat (12 + text.length + padding)) ++
      ascii "FTXTCHRS" ++ write32 (UInt32.ofNat text.length) ++ text ++ List.replicate padding 0)

/-- **Text clips.** The text of a clip made of a text is that text. -/
theorem extractText_makeTextClip {text clip : List UInt8} (h : makeTextClip text = some clip) :
    extractText clip = some text := by
  have hmax : maxSize = 67108864 := rfl
  have hword : UInt32.size = 4294967296 := rfl
  unfold makeTextClip at h
  by_cases hlong : maxSize - 20 - text.length % 2 < text.length
  · rw [if_pos hlong] at h
    exact nomatch h
  rw [if_neg hlong, Option.some.injEq] at h
  have hsize : (UInt32.ofNat (12 + text.length + text.length % 2)).toNat =
      12 + text.length + text.length % 2 := UInt32.toNat_ofNat_of_lt' (by omega)
  have hlen : (UInt32.ofNat text.length).toNat = text.length := UInt32.toNat_ofNat_of_lt' (by omega)
  generalize UInt32.ofNat (12 + text.length + text.length % 2) = size at h hsize
  generalize UInt32.ofNat text.length = length at h hlen
  -- What stands at the places where the scan looks.
  have htotal : clip.length = 20 + text.length + text.length % 2 := by
    subst h
    simp [ascii]
    omega
  have hform : clip.take 4 = ascii "FORM" := by subst h; rfl
  have hfst : read32 (clip.drop 4) = size := by
    subst h
    exact read32_write32_append _ _
  have hftxt : (clip.drop 8).take 4 = ascii "FTXT" := by subst h; rfl
  have hchrs : (clip.drop 12).take 4 = ascii "CHRS" := by subst h; rfl
  have hsnd : read32 (clip.drop 16) = length := by
    subst h
    exact read32_write32_append _ _
  have htext : (clip.drop 20).take text.length = text := by
    subst h
    exact List.take_left
  have hstep : extractStep clip { position := 12 } =
      (true, { position := clip.length, text := text, found := true }) := by
    unfold extractStep
    rw [if_neg (by show ¬ clip.length ≤ 12; omega)]
    dsimp only
    rw [hsnd, hlen, if_neg (by omega), if_neg (by omega), hchrs, htext, htotal]
    simp
  have hlast (s : Scan) (hs : s.position = clip.length) : extractStep clip s = (false, s) := by
    unfold extractStep
    rw [if_pos (by omega)]
  have hrun : run (extractStep clip) (clip.length + 1) { position := 12 } =
      { position := clip.length, text := text, found := true } := by
    obtain ⟨rounds, hrounds⟩ : ∃ rounds, clip.length = rounds + 1 := ⟨clip.length - 1, by omega⟩
    rw [hrounds, run, hstep]
    dsimp only
    rw [run, hlast _ rfl, hrounds]
  unfold extractText
  rw [if_neg, hrun]
  · rfl
  rw [hfst]
  rintro (hshort | hother | hnone | hlate | hother)
  · omega
  · exact hother hform
  · omega
  · omega
  · exact hother hftxt

/-- **Text clips read back.** A text that fits with its padding is made into a clip that reads back
as the text, and a longer one is not made into a clip. The scan of any clip ends by itself. -/
theorem makeTextClip_read_back (text : List UInt8) :
    (if text.length + text.length % 2 + 20 ≤ maxSize then
      ∃ clip, makeTextClip text = some clip ∧ extractText clip = some text
    else makeTextClip text = none) ∧
    ∀ data s, Finishes (extractStep data) (data.length + 1) s := by
  have hmax : maxSize = 67108864 := rfl
  refine ⟨?_, fun data s => (falls_extractStep data).finishes trivial (by omega)⟩
  split_ifs with hfits
  · cases hclip : makeTextClip text with
    | none =>
      unfold makeTextClip at hclip
      grind
    | some clip => exact ⟨clip, rfl, extractText_makeTextClip hclip⟩
  · unfold makeTextClip
    rw [if_pos (by omega)]

/-! ## The host clipboard -/

/-- What reading the host clipboard gives: 1, -1, or 0 with the text. -/
inductive HostRead
  | absent
  | failed
  | text (bytes : List UInt8)
  deriving DecidableEq

/-- The clipboard programs of the desktop. `get` is `none` without a program to read with, and `some
none` if that fails; `put` is what becomes of the clipboard, whether or not the program that writes
it succeeds. -/
structure HostProgram (η : Type) where
  get : η → Option (Option (List UInt8))
  put : List UInt8 → η → η

structure HostFile where
  content : Option (List UInt8) := none
  readable : Bool := true
  writable : Bool := true

structure Host (η : Type) where
  disabled : Bool := false
  file : Option HostFile := none
  desktop : η

section HostSide

variable {η : Type} (program : HostProgram η)

variable (host : Host η)

/-- `host_file_read` -/
def hostFileRead : HostRead :=
  match host.file with
  | none => .absent
  | some file =>
    if !file.readable then .failed
    else
      match file.content with
      | none => .absent
      | some bytes => if bytes.length ≤ maxSize then .text bytes else .failed

/-- `host_command_read` -/
def hostCommandRead : HostRead :=
  match program.get host.desktop with
  | none => .absent
  | some none => .failed
  | some (some bytes) => if bytes.length ≤ maxSize then .text bytes else .failed

def hostRead : HostRead :=
  match hostFileRead host with
  | .absent => hostCommandRead program host
  | outcome => outcome

def hostWrite (bytes : List UInt8) : Host η :=
  match host.file with
  | none => { host with desktop := program.put bytes host.desktop }
  | some file =>
    if file.writable then { host with file := some { file with content := some bytes } } else host

/-! ## The store -/

/-- Why a clip cannot be loaded. -/
inductive LoadError
  | missing
  | failed
  deriving DecidableEq

/-- `ace_clipboard_store_load`. The file of the unit is missing or has a content; `loads` says
whether it can be read. -/
def storeLoad (loads : Bool) (store : Option (List UInt8)) : Except LoadError (List UInt8) :=
  if loads then
    match store with
    | none => .error .missing
    | some data => if maxSize < data.length then .error .failed else .ok data
  else .error .failed

/-- `store_commit_raw`: the unit's file afterwards. `writes` says whether the calls of the host's
file system succeed. -/
def storeCommitRaw (writes : Bool) (data : List UInt8) : Option (List UInt8) :=
  if maxSize < data.length then none else if writes then some data else none

def storeCommit (number : ℕ) (writes : Bool) (host : Host η) (data : List UInt8) :
    Option (List UInt8 × Host η) :=
  match storeCommitRaw writes data with
  | none => none
  | some stored =>
    if number ≠ 0 ∨ host.disabled then some (stored, host)
    else
      match extractText data with
      | none => some (stored, host)
      | some text => some (stored, hostWrite program host text)

def hostRefresh (loads writes : Bool) (host : Host η) (store : Option (List UInt8)) :
    Option (List UInt8) :=
  if host.disabled then store
  else
    match hostRead program host with
    | .absent | .failed => store
    | .text text =>
      if (storeLoad loads store).toOption.bind extractText = some text then store
      else
        match makeTextClip text with
        | none => store
        | some clip => (storeCommitRaw writes clip).or store

end HostSide

end AceShell.Clipboard
