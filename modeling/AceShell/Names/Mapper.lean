import AceShell.Names.Payload

/-!
# The component mapper

`mapComponent` gives a Linux directory entry its AmigaDOS spelling and `unmapComponent` reads one
back. The parent directory is what `opendir` and `readdir` make of it: `none` when it cannot be
opened. `Spells` says once what a successful `mapComponent` can have done; everything that is
proved about spellings goes through it (`spells_of_map`).
-/

namespace AceShell

open Text

variable (z : Zlib)

/-! ## Case variants -/

/-- The entries a directory scan for `name` looks at: those equal to it up to case, the dot names
left out. -/
def caseVariants (stream : List Name) (name : Name) : List Name :=
  stream.filter fun entry => entry != dotName && entry != dotDotName && caseEq entry name

variable (parent : Option (List Name))

def hostCaseVariantNeedsMapping (hostName : Name) : Bool :=
  match parent with
  | none => false
  | some stream =>
    (caseVariants stream hostName).any (· != hostName) &&
      lexFirst (caseVariants stream hostName) != some hostName

/-- `component_needs_mapping`. -/
def componentNeedsMapping (name : Name) : Bool :=
  decide (amigaComponentLimit < name.length) || (firstUnspellableIndex z name).isSome

/-- `amiga_component_for_host`. -/
def amigaComponentForHost (hostName : Name) : Option Name :=
  if hostName = ascii ":" then some (ascii ".")
  else if hostName = ascii "::" then some (ascii "..")
  else none

/-- `host_component_for_amiga`. -/
def hostComponentForAmiga (amigaName : Name) : Option Name :=
  if amigaName = ascii "." then some (ascii ":")
  else if amigaName = ascii ".." then some (ascii "::")
  else none

/-! ## Where the literal part stops -/

def commonPrefix : Name → Name → ℕ
  | a :: as, b :: bs => if a = b then commonPrefix as bs + 1 else 0
  | _, _ => 0

/-- `component_split_point`. -/
def componentSplitPoint (hostName : Name) : ℕ :=
  match parent with
  | none => (firstUnspellableIndex z hostName).getD hostName.length
  | some stream =>
    ((caseVariants stream hostName).filter (· != hostName)).foldl
      (fun split entry => min split (commonPrefix entry hostName))
      ((firstUnspellableIndex z hostName).getD hostName.length)

/-! ## Spelling a host name -/

def literalEscape (split : ℕ) (hostName : Name) : Option Name :=
  if (hostName.drop split).length + 1 ≤ nameMax + 2 ∧
      split + 1 + base32EncodedLength ((hostName.drop split).length + 1) ≤ amigaComponentLimit then
    match base32Encode (hostName.drop split ++ [0]) (amigaComponentLimit + 1) with
    | none => none
    | some encoded =>
      if (hostName.take split ++ mappedMarker :: encoded).length < amigaComponentLimit + 1
      then some (hostName.take split ++ mappedMarker :: encoded) else none
  else none

def bestCompressed (tailText : Name) : Option (List UInt8) :=
  let packed :=
    if pack39Encodable tailText
    then (pack39Encode tailText (nameMax + 1)).map (· ++ [pack39Trailer]) else none
  match deflateCompress z tailText (nameMax + 1) with
  | none => packed
  | some compressed =>
    match packed with
    | none => some (compressed ++ [deflateTrailer])
    | some best =>
      if compressed.length + 1 < best.length then some (compressed ++ [deflateTrailer])
      else some best

/-- Where the compressed tier starts its tail: nothing left of a name that is merely too long
means the whole name. -/
def compressSplit (split : ℕ) (hostName : Name) : ℕ :=
  if hostName.length - split = 0 then 0 else split

def compressedEscape (split : ℕ) (hostName : Name) : Option Name :=
  let tailText := hostName.drop (compressSplit split hostName)
  if nameMax < tailText.length then none
  else
    match bestCompressed z tailText with
    | none => none
    | some best =>
      if compressSplit split hostName + 2 + dense128EncodedLength best.length ≤
          amigaComponentLimit then
        match dense128Encode best (amigaComponentLimit + 1) with
        | none => none
        | some encoded =>
          let candidate :=
            hostName.take (compressSplit split hostName) ++ mappedMarker :: zeroDigit :: encoded
          if candidate.length < amigaComponentLimit + 1 then some candidate else none
      else none

def copyOut (text : Name) (resultSize : ℕ) : Except Errno Name :=
  if resultSize ≤ text.length then .error .enametoolong else .ok text

/-- `map_component`. -/
def mapComponent (hostName : Name) (resultSize : ℕ) :
    Except Errno Name :=
  match amigaComponentForHost hostName with
  | some fixedName => copyOut fixedName resultSize
  | none =>
    if !componentNeedsMapping z hostName && !hostCaseVariantNeedsMapping parent hostName then
      copyOut hostName resultSize
    else
      let split := min (componentSplitPoint z parent hostName) hostName.length
      match literalEscape split hostName with
      | some candidate => copyOut candidate resultSize
      | none =>
        match compressedEscape z split hostName with
        | some candidate => copyOut candidate resultSize
        | none => .error .enametoolong

/-! ## Reading a spelling -/

/-- `match_existing_case`. -/
def matchExistingCase (name : Name) (nameSize : ℕ) : Name :=
  match parent with
  | none => name
  | some stream =>
    match lexFirst ((caseVariants stream name).filter fun e => decide (e.length < nameMax + 1)) with
    | none => name
    | some best => if best.length < nameSize then best else name

/-- `unmap_component`. A caret that opens no escape this side can read leaves the name as it
was given. -/
def unmapComponent (amigaName : Name) (resultSize : ℕ) :
    Except Errno Name :=
  match hostComponentForAmiga amigaName with
  | some fixedName => copyOut fixedName resultSize
  | none =>
    match escapeMarker z amigaName with
    | none =>
      (copyOut amigaName resultSize).map fun name => matchExistingCase parent name resultSize
    | some marker =>
      if amigaName[marker + 1]? = some zeroDigit then
        match compressedPayloadDecode z (amigaName.drop (marker + 2)) (nameMax + 2) with
        | some tailText => copyOut (amigaName.take marker ++ tailText) resultSize
        | none => copyOut amigaName resultSize
      else
        match base32Decode (amigaName.drop (marker + 1)) (nameMax + 1) with
        | some payload =>
          if payload.getLast? = some 0
          then copyOut (amigaName.take marker ++ payload.dropLast) resultSize
          else copyOut amigaName resultSize
        | none => copyOut amigaName resultSize

/-! ## What a spelling can be -/

variable {z}

variable {s : Name} {n : ℕ}

theorem copyOut_eq_ok {text : Name} : copyOut text n = .ok s ↔ text.length < n ∧ text = s := by
  unfold copyOut
  split_ifs with h
  · simp only [false_iff, not_and]
    omega
  · simp only [Except.ok.injEq]
    exact ⟨fun he => ⟨by omega, he⟩, fun he => he.2⟩

def splitOf (z : Zlib) (parent : Option (List Name)) (hostName : Name) : ℕ :=
  min (componentSplitPoint z parent hostName) hostName.length

/-- What a successful `map_component` has done: one of the two fixed names, the name itself, a
literal escape, or a compressed one. -/
inductive Spells (z : Zlib) (parent : Option (List Name)) (h : Name) : Name → Prop
  | fixed {s : Name} (hs : amigaComponentForHost h = some s) : Spells z parent h s
  | plain (hfix : amigaComponentForHost h = none) (hneed : componentNeedsMapping z h = false)
      (hcase : hostCaseVariantNeedsMapping parent h = false) : Spells z parent h h
  | literal {encoded : List UInt8} (hfix : amigaComponentForHost h = none)
      (hneed : componentNeedsMapping z h = true ∨ hostCaseVariantNeedsMapping parent h = true)
      (henc : base32Encode (h.drop (splitOf z parent h) ++ [0]) (amigaComponentLimit + 1) =
        some encoded)
      (htail : (h.drop (splitOf z parent h)).length ≤ nameMax + 1)
      (hlen : (h.take (splitOf z parent h) ++ mappedMarker :: encoded).length ≤
        amigaComponentLimit) :
      Spells z parent h (h.take (splitOf z parent h) ++ mappedMarker :: encoded)
  | compressed {best encoded : List UInt8} (hfix : amigaComponentForHost h = none)
      (hneed : componentNeedsMapping z h = true ∨ hostCaseVariantNeedsMapping parent h = true)
      (hlit : literalEscape (splitOf z parent h) h = none)
      (htail : (h.drop (compressSplit (splitOf z parent h) h)).length ≤ nameMax)
      (hbest : bestCompressed z (h.drop (compressSplit (splitOf z parent h) h)) = some best)
      (henc : dense128Encode best (amigaComponentLimit + 1) = some encoded)
      (hlen : (h.take (compressSplit (splitOf z parent h) h) ++
        mappedMarker :: zeroDigit :: encoded).length ≤ amigaComponentLimit) :
      Spells z parent h
        (h.take (compressSplit (splitOf z parent h) h) ++ mappedMarker :: zeroDigit :: encoded)

variable {split : ℕ} {h : Name}

theorem literalEscape_eq_some (hs : literalEscape split h = some s) :
    ∃ encoded, base32Encode (h.drop split ++ [0]) (amigaComponentLimit + 1) = some encoded ∧
      (h.drop split).length ≤ nameMax + 1 ∧ s.length ≤ amigaComponentLimit ∧
      s = h.take split ++ mappedMarker :: encoded := by
  unfold literalEscape at hs
  split_ifs at hs with hfit
  cases henc : base32Encode (h.drop split ++ [0]) (amigaComponentLimit + 1) with
  | none => rw [henc] at hs; simp at hs
  | some encoded =>
  rw [henc] at hs
  simp only at hs
  split_ifs at hs with hlen
  simp only [Option.some.injEq] at hs
  exact ⟨encoded, rfl, by omega, by rw [← hs]; omega, hs.symm⟩

theorem compressedEscape_eq_some (hs : compressedEscape z split h = some s) :
    ∃ best encoded, bestCompressed z (h.drop (compressSplit split h)) = some best ∧
      dense128Encode best (amigaComponentLimit + 1) = some encoded ∧
      (h.drop (compressSplit split h)).length ≤ nameMax ∧ s.length ≤ amigaComponentLimit ∧
      s = h.take (compressSplit split h) ++ mappedMarker :: zeroDigit :: encoded := by
  unfold compressedEscape at hs
  simp only at hs
  split_ifs at hs with htail
  cases hbest : bestCompressed z (h.drop (compressSplit split h)) with
  | none => rw [hbest] at hs; simp at hs
  | some best =>
  rw [hbest] at hs
  simp only at hs
  split_ifs at hs with hfit
  cases henc : dense128Encode best (amigaComponentLimit + 1) with
  | none => rw [henc] at hs; simp at hs
  | some encoded =>
  rw [henc] at hs
  simp only at hs
  split_ifs at hs with hlen
  simp only [Option.some.injEq] at hs
  exact ⟨best, encoded, rfl, henc, by omega, by rw [← hs]; omega, hs.symm⟩

/-- **Inversion.** A successful `map_component` did one of the four things. -/
theorem spells_of_map {parent : Option (List Name)} (hm : mapComponent z parent h n = .ok s)
    : Spells z parent h s := by
  unfold mapComponent at hm
  cases hfix : amigaComponentForHost h with
  | some fixedName =>
    rw [hfix] at hm
    obtain ⟨-, rfl⟩ := copyOut_eq_ok.mp hm
    exact .fixed hfix
  | none =>
  rw [hfix] at hm
  simp only at hm
  split_ifs at hm with hneed
  · obtain ⟨-, rfl⟩ := copyOut_eq_ok.mp hm
    simp only [Bool.and_eq_true, Bool.not_eq_true'] at hneed
    exact .plain hfix hneed.1 hneed.2
  have hneed' : componentNeedsMapping z h = true ∨
      hostCaseVariantNeedsMapping parent h = true := by
    by_contra hno
    push Not at hno
    exact hneed (by simp [hno.1, hno.2])
  rw [← splitOf] at hm
  cases hlit : literalEscape (splitOf z parent h) h with
  | some candidate =>
    rw [hlit] at hm
    obtain ⟨-, rfl⟩ := copyOut_eq_ok.mp hm
    obtain ⟨encoded, henc, htail, hlen, rfl⟩ := literalEscape_eq_some hlit
    exact .literal hfix hneed' henc htail hlen
  | none =>
  rw [hlit] at hm
  cases hcomp : compressedEscape z (splitOf z parent h) h with
  | none => rw [hcomp] at hm; simp at hm
  | some candidate =>
  rw [hcomp] at hm
  obtain ⟨-, rfl⟩ := copyOut_eq_ok.mp hm
  obtain ⟨best, encoded, hbest, henc, htail, hlen, rfl⟩ := compressedEscape_eq_some hcomp
  exact .compressed hfix hneed' hlit htail hbest henc hlen

end AceShell
