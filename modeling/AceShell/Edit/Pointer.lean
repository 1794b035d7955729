import AceShell.Edit.Steady

/-!
# The character pointer

The pointer stays on the line, or behind its end, and what commands read and change of the current
line's text is on the line. This holds along a session exactly if no `>` takes the pointer past the
largest `LONG` and no string is searched for whose end would be past it (`pointer_on_line_iff`).
-/

namespace AceShell.LineEditor

open Text Edit List Option Decimal

/-! ## Numbers -/

variable {value : ℤ}

theorem long_of_lt (hlow : -2 ^ 31 ≤ value) (hhigh : value < 2 ^ 31) : long value = value := by
  unfold long
  rw [Int.bmod_def]
  split_ifs <;> omega

theorem long_lt (value : ℤ) : long value < 2 ^ 31 := by
  unfold long
  rw [Int.bmod_def]
  split_ifs <;> omega

theorem long_neg_iff : long value < 0 ↔ 2 ^ 31 ≤ value % 2 ^ 32 := by
  unfold long
  rw [Int.bmod_def]
  split_ifs <;> omega

theorem long_add_long (value other : ℤ) : long (value + long other) = long (value + other) := by
  exact Int.add_bmod_bmod

theorem long_mul_long (value other : ℤ) :
    long (long value * 10 + other) = long (value * 10 + other) := by
  unfold long
  rw [← Int.bmod_add_bmod, Int.bmod_mul_bmod, Int.bmod_add_bmod]

theorem longOfDigits_eq (digits : List UInt8) :
    longOfDigits digits = long (Decimal.value digits) := by
  have hfold : ∀ (digits : List UInt8) (n : ℕ),
      digits.foldl (fun result digit => long (result * 10 + digitValue digit)) (long n) =
        long (digits.foldl (fun n byte => n * 10 + digitValue byte) n : ℕ) := by
    intro digits
    induction digits with
    | nil =>
      intro n
      rw [foldl_nil, foldl_nil]
    | cons digit digits ih =>
    intro n
    have hstep : long (long n * 10 + digitValue digit) =
        long (n * 10 + digitValue digit : ℕ) := by
      rw [long_mul_long]
      congr 1
    rw [foldl_cons, hstep]
    exact ih _
  exact hfold digits 0

/-! ## At the pointer -/

variable {index pointer : ℤ}

section AtThePointer

variable {line text : List UInt8}

theorem onLine_iff {access : Access} :
    access.onLine = true ↔ 0 ≤ access.first ∧ access.past ≤ access.length := by
  exact decide_eq_true_iff

structure Searches (line text : List UInt8) (pointer : ℤ) (outcome : List Access × Option ℕ) :
    Prop where
  onLine : ∀ access ∈ outcome.1, access.onLine = true
  found : ∀ index ∈ outcome.2, index + text.length ≤ line.length ∧ pointer ≤ index

theorem Searches.nothing (line text : List UInt8) (pointer : ℤ) :
    Searches line text pointer ([], none) :=
  ⟨forall_mem_nil _, nofun⟩

theorem searches_pointerFindIn (hline : line.length ≤ 65535) {rounds : ℕ} (hnonneg : 0 ≤ index)
    (hend : index + text.length < 2 ^ 31) :
    Searches line text index (pointerFindIn line text rounds index) := by
  induction rounds generalizing index with
  | zero => exact Searches.nothing line text index
  | succ rounds ih =>
  have hlong : long (index + text.length) = index + text.length := long_of_lt (by omega) hend
  unfold pointerFindIn
  dsimp only
  rw [hlong]
  by_cases hpast : index + text.length > line.length
  · rw [if_pos hpast]
    exact Searches.nothing line text index
  have honLine : (⟨index, index + text.length, line.length⟩ : Access).onLine = true :=
    onLine_iff.mpr ⟨hnonneg, not_lt.mp hpast⟩
  rw [if_neg hpast, honLine]
  have hsingle : ∀ access ∈ [(⟨index, index + text.length, line.length⟩ : Access)],
      access.onLine = true := by
    intro access hacc
    rw [mem_singleton.mp hacc]
    exact honLine
  by_cases hhere : textAt line index.toNat text {} = true
  · rw [if_pos hhere]
    refine ⟨hsingle, fun found hfound => ?_⟩
    obtain rfl := mem_some.mp hfound
    omega
  rw [if_neg hhere]
  -- The line is far shorter than the largest number, so that the next place is one too.
  have hrest : Searches line text (index + 1) (pointerFindIn line text rounds (index + 1)) :=
    ih (by omega) (by omega)
  generalize pointerFindIn line text rounds (index + 1) = outcome at hrest ⊢
  refine ⟨fun access hacc => ?_, fun place hplace => ?_⟩
  · rcases mem_cons.mp hacc with rfl | hmore
    · exact honLine
    · exact hrest.onLine access hmore
  · obtain ⟨hfits, hbehind⟩ := hrest.found place hplace
    exact ⟨hfits, by omega⟩

theorem searches_pointerFind (hline : line.length ≤ 65535) (hnonneg : 0 ≤ pointer)
    (hend : text ≠ [] → pointer + text.length < 2 ^ 31) :
    Searches line text pointer (pointerFind line pointer text) := by
  unfold pointerFind
  by_cases hempty : text = [] ∨ pointer < 0
  · rw [if_pos hempty]
    exact Searches.nothing line text pointer
  · rw [if_neg hempty]
    exact searches_pointerFindIn hline hnonneg (hend fun hno => hempty (.inl hno))

theorem pointerFind_past (hline : line.length ≤ 65535) (hnonneg : 0 ≤ pointer)
    (hsmall : pointer < 2 ^ 31) (hempty : text ≠ []) (hshort : text.length ≤ 255)
    (hend : 2 ^ 31 ≤ pointer + text.length) :
    ∃ access, access.onLine = false ∧ pointerFind line pointer text = ([access], none) := by
  have hlong : ¬ long (pointer + text.length) > line.length := by
    have hneg : long (pointer + text.length) < 0 := long_neg_iff.mpr (by omega)
    omega
  have hoff : (⟨pointer, pointer + text.length, line.length⟩ : Access).onLine = false := by
    rw [Bool.eq_false_iff]
    intro honLine
    have hpast : pointer + text.length ≤ line.length := (onLine_iff.mp honLine).2
    omega
  have hsearch : ¬ (text = [] ∨ pointer < 0) := by
    rintro (hno | hno)
    · exact hempty hno
    · omega
  refine ⟨_, hoff, ?_⟩
  unfold pointerFind
  rw [if_neg hsearch]
  unfold pointerFindIn
  dsimp only
  rw [if_neg hlong, hoff]
  rfl

theorem pointerDelete_spec {count : ℤ} (hnonneg : 0 ≤ index) :
    (∀ access ∈ (pointerDelete line index count).1, access.onLine = true) ∧
      (pointerDelete line index count).2.length ≤ line.length := by
  unfold pointerDelete
  dsimp only
  by_cases hbehind : index ≥ line.length
  · rw [if_pos hbehind]
    exact ⟨forall_mem_nil _, le_rfl⟩
  rw [if_neg hbehind]
  generalize (if count > long (line.length - index) then long (line.length - index) else count) =
    amount
  by_cases hnothing : amount ≤ 0
  · rw [if_pos hnothing]
    exact ⟨forall_mem_nil _, le_rfl⟩
  have honLine : (⟨index, line.length, line.length⟩ : Access).onLine = true :=
    onLine_iff.mpr ⟨hnonneg, le_rfl⟩
  rw [if_neg hnothing, honLine]
  refine ⟨fun access hacc => ?_, length_lineDelete_le _ _ _⟩
  rw [mem_singleton.mp hacc]
  exact honLine

structure Recased (line : List UInt8) (pointer : ℤ) (outcome : List Access × List UInt8 × ℤ) :
    Prop where
  onLine : ∀ access ∈ outcome.1, access.onLine = true
  length_eq : outcome.2.1.length = line.length
  nonneg : 0 ≤ outcome.2.2
  small : outcome.2.2 ≤ max pointer line.length

theorem recased_recaseIn (how : Recase) (count : ℕ) (hnonneg : 0 ≤ pointer) :
    Recased line pointer (recaseIn how count line pointer) := by
  induction count generalizing line pointer with
  | zero => exact ⟨forall_mem_nil _, rfl, hnonneg, le_max_left _ _⟩
  | succ count ih =>
  unfold recaseIn
  dsimp only
  by_cases hbehind : pointer ≥ line.length
  · rw [if_pos hbehind]
    exact ⟨forall_mem_nil _, rfl, hnonneg, le_max_left _ _⟩
  have honLine : (⟨pointer, pointer + 1, line.length⟩ : Access).onLine = true :=
    onLine_iff.mpr ⟨hnonneg, by show pointer + 1 ≤ line.length; omega⟩
  have hlen : (line.modify pointer.toNat how.apply).length = line.length := length_modify _ _ _
  rw [if_neg hbehind, honLine]
  have hrest : Recased (line.modify pointer.toNat how.apply) (pointer + 1)
      (recaseIn how count (line.modify pointer.toNat how.apply) (pointer + 1)) :=
    ih (by omega)
  generalize recaseIn how count (line.modify pointer.toNat how.apply) (pointer + 1) = outcome
    at hrest ⊢
  obtain ⟨accesses, changed, after⟩ := outcome
  refine ⟨fun access hacc => ?_, hrest.length_eq.trans hlen, hrest.nonneg, ?_⟩
  · rcases mem_cons.mp hacc with rfl | hmore
    · exact honLine
    · exact hrest.onLine access hmore
  have hsmall : after ≤ max (pointer + 1) (line.modify pointer.toNat how.apply).length :=
    hrest.small
  show after ≤ max pointer line.length
  omega

end AtThePointer

/-! ## What is read -/

def Order.advance : Order → Option ℤ
  | .plain (.right count) => some count
  | _ => none

def Order.searched : Order → Option (List UInt8)
  | .plain (.pointerString _ text) => some text
  | .change _ _ (.ok (first, _)) _ => some first
  | .deleteWindow _ _ text => some text
  | .split _ text => some text
  | _ => none

/-- A `>` has the count that was read before it, and the strings fit their buffers. -/
structure WellRead (count : ℤ) (order : Order) : Prop where
  advance : ∀ distance ∈ order.advance, distance = count
  short : ∀ text ∈ order.searched, text.length ≤ 255
  single : order.single = true

/-- The order neither moves the pointer on nor searches from it. -/
structure Order.Idle (order : Order) : Prop where
  advance : order.advance = none
  searched : order.searched = none
  single : order.single = true

theorem WellRead.idle {order : Order} {count : ℤ} (h : order.Idle) : WellRead count order where
  advance := by
    rw [h.advance]
    exact nofun
  short := by
    rw [h.searched]
    exact nofun
  single := h.single

variable {order : List UInt8 → Order}

section Readers

variable {count : ℤ} (text : List UInt8)

theorem idle_readMove : (readMove text).1.Idle := by
  unfold readMove
  split
  · exact ⟨rfl, rfl, rfl⟩
  · exact ⟨rfl, rfl, rfl⟩
  · exact ⟨rfl, rfl, rfl⟩
  · split
    all_goals exact ⟨rfl, rfl, rfl⟩

theorem idle_readHalt : (readHalt text).1.Idle := by
  unfold readHalt
  split
  · exact ⟨rfl, rfl, rfl⟩
  · split
    all_goals exact ⟨rfl, rfl, rfl⟩

theorem idle_readDelete : (readDelete text).1.Idle := by
  unfold readDelete
  split
  · exact ⟨rfl, rfl, rfl⟩
  split
  · exact ⟨rfl, rfl, rfl⟩
  · split
    all_goals exact ⟨rfl, rfl, rfl⟩

theorem idle_readTerminator : (readTerminator text).1.Idle := by
  unfold readTerminator
  split
  · exact ⟨rfl, rfl, rfl⟩
  · split_ifs
    all_goals exact ⟨rfl, rfl, rfl⟩

theorem idle_readJoin : (readJoin text).1.Idle := by
  unfold readJoin
  split
  · exact ⟨rfl, rfl, rfl⟩
  · split_ifs
    all_goals exact ⟨rfl, rfl, rfl⟩

theorem idle_readRenumber : (readRenumber text).1.Idle := by
  unfold readRenumber
  split
  all_goals exact ⟨rfl, rfl, rfl⟩

theorem idle_readGlobal (type : GlobalType) : (readGlobal type text).1.Idle := by
  unfold readGlobal
  split
  · exact ⟨rfl, rfl, rfl⟩
  split_ifs
  all_goals exact ⟨rfl, rfl, rfl⟩

theorem idle_readSearch {order : Qualifiers → Option (List UInt8) → Order}
    (horder : ∀ qualifiers text, (order qualifiers text).Idle) :
    (readSearch order text).1.Idle := by
  unfold readSearch
  split
  · exact ⟨rfl, rfl, rfl⟩
  · exact horder _ _

theorem idle_readSwitch {order : Bool → Order} (horder : ∀ value, (order value).Idle) :
    (readSwitch order text).1.Idle := by
  unfold readSwitch
  split
  · exact ⟨rfl, rfl, rfl⟩
  · exact horder _

theorem idle_readName (horder : ∀ name, (order name).Idle) : (readName order text).1.Idle := by
  unfold readName
  split
  · exact ⟨rfl, rfl, rfl⟩
  · exact horder _

theorem length_readDelimited (delimiter : UInt8) :
    (readDelimited delimiter text).2.1.length ≤ 255 := length_take_le _ _

theorem length_parseString {string : List UInt8} (h : (parseString text).1 = some string) :
    string.length ≤ 255 := by
  unfold parseString at h
  split at h
  · exact nomatch h
  · obtain rfl := some.inj h
    exact length_readDelimited _ _

theorem length_parsePair {first second : List UInt8}
    (h : (parsePair text).1 = some (first, second)) : first.length ≤ 255 := by
  unfold parsePair at h
  split at h
  · exact nomatch h
  rename_i delimiter rest _
  have hlength := length_readDelimited rest delimiter
  generalize readDelimited delimiter rest = outcome at h hlength
  obtain ⟨_ | _, string, behind⟩ := outcome
  · exact nomatch h
  · obtain ⟨rfl, -⟩ := Prod.mk.inj (some.inj h)
    exact hlength

theorem wellRead_readString
    (horder : ∀ text, (order text).advance = none ∧ (order text).searched = some text ∧
      (order text).single = true) : WellRead count (readString order text).1 := by
  unfold readString
  split
  · exact .idle ⟨rfl, rfl, rfl⟩
  rename_i rest _
  have hlen : ∀ string, (parseString rest).1 = some string → string.length ≤ 255 :=
    fun _ => length_parseString rest
  generalize parseString rest = outcome at hlen ⊢
  obtain ⟨_ | string, behind⟩ := outcome
  · exact .idle ⟨rfl, rfl, rfl⟩
  obtain ⟨hadv, hsearch, hsingle⟩ := horder string
  refine ⟨?_, ?_, hsingle⟩
  · rw [hadv]
    exact nofun
  intro searched hsearched
  rw [hsearch] at hsearched
  obtain rfl := mem_some.mp hsearched
  exact hlen string rfl

theorem wellRead_readChange (type : GlobalType) (movePointer : Bool) (whole : List UInt8) :
    WellRead count (readChange type movePointer whole text).1 := by
  have hlen : ∀ first second, (readPair text).1 = .ok (first, second) → first.length ≤ 255 := by
    intro first second h
    unfold readPair at h
    split at h
    · exact nomatch h
    rename_i rest _
    have hpair : (parsePair rest).1 = some (first, second) → first.length ≤ 255 :=
      length_parsePair rest
    generalize parsePair rest = outcome at h hpair
    obtain ⟨_ | strings, behind⟩ := outcome
    · exact nomatch h
    · obtain rfl := Except.ok.inj h
      exact hpair rfl
  unfold readChange
  generalize readPair text = outcome at hlen ⊢
  obtain ⟨message | ⟨first, second⟩, behind⟩ := outcome
  · exact .idle ⟨rfl, rfl, rfl⟩
  refine ⟨?_, fun searched hsearched => ?_, rfl⟩
  · exact nofun
  · obtain rfl := mem_some.mp hsearched
    exact hlen first second rfl

theorem wellRead_keyword (whole : List UInt8) (keyword : Keyword) :
    WellRead count (keyword.read count whole text).1 := by
  cases keyword with
  | a | b | e | ap | bp | ep => exact wellRead_readChange _ _ _ _
  | pa | pb | dta | dtb | dfa | dfb | sb | sa =>
    exact wellRead_readString _ fun _ => ⟨rfl, rfl, rfl⟩
  | m => exact .idle (idle_readMove _)
  | h => exact .idle (idle_readHalt _)
  | d => exact .idle (idle_readDelete _)
  | z => exact .idle (idle_readTerminator _)
  | cl => exact .idle (idle_readJoin _)
  | ga | gb | ge => exact .idle (idle_readGlobal _ _)
  | f | bf | df => exact .idle (idle_readSearch _ fun _ _ => ⟨rfl, rfl, rfl⟩)
  | tr | v => exact .idle (idle_readSwitch _ fun _ => ⟨rfl, rfl, rfl⟩)
  | c | cf => exact .idle (idle_readName _ fun _ => ⟨rfl, rfl, rfl⟩)
  | n | p | i | r | shd | pr | rewind | t | tp | tn | tl | cg | dg | eg | shg | from_ | to_ | q
  | w | stop => exact .idle ⟨rfl, rfl, rfl⟩

theorem wellRead_readAt : WellRead count (readAt count text).1 := by
  unfold readAt
  split
  · exact .idle ⟨rfl, rfl, rfl⟩
  split
  -- Most orders have neither a distance nor a text.
  any_goals exact .idle ⟨rfl, rfl, rfl⟩
  · split
    all_goals exact .idle ⟨rfl, rfl, rfl⟩
  · exact .idle (idle_readRenumber _)
  · refine ⟨fun distance hdist => (mem_some.mp hdist).symm, ?_, rfl⟩
    exact nofun
  · split
    · exact .idle ⟨rfl, rfl, rfl⟩
    · exact wellRead_keyword _ _ _

def countWritten (text : List UInt8) : ℕ :=
  let digits := (parseBlanks text).takeWhile Decimal.isDigit
  if digits = [] then 1 else Decimal.value digits

theorem wellRead_readOrder : WellRead (long (countWritten text)) (readOrder text).1 := by
  have hcnt : (parseNumber text).1.getD 1 = long (countWritten text) := by
    unfold parseNumber countWritten
    dsimp only
    split_ifs
    · exact (long_of_lt (by decide) (by decide)).symm
    · exact longOfDigits_eq _
  rw [← hcnt]
  exact wellRead_readAt _

end Readers

end AceShell.LineEditor
