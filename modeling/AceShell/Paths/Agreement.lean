import AceShell.Paths.VolumeRoundTrip

/-!
# Relative and volume-qualified names

`normalizeAmigaPath` decodes a bare name against the current directory and then puts the host
path it has built through the decoder again, against the volume's root. The second pass changes
nothing exactly when every component of that host path reads as itself. A volume-qualified name
is decoded once.
-/

namespace AceShell

open Text List

variable {z : Zlib} {host : Host} {cat : Catalog} {n : ℕ} {ds : List Name} {h s : Name}

/-! ## The first pass -/

variable {result : Name}

theorem amigaWalk_spelling (hcwd : (pathOf rootPath ds).length < n) (hs : Plain s)
    (hlong : s.length < pathMax)
    (hu : unmapComponent z (host.listing (pathOf rootPath ds)) s pathMax = .ok result)
    (hfit : (extend (pathOf rootPath ds) result).length < n) :
    amigaWalk z host (pathOf rootPath ds) s n = .ok (extend (pathOf rootPath ds) result) := by
  obtain ⟨b, bs, rfl⟩ := exists_cons_of_ne_nil hs.1
  have hb : (b == slash) = false := by
    rw [beq_eq_false_iff_ne]
    rintro rfl
    exact hs.2 mem_cons_self
  have hhead : (b :: bs).head? ≠ some slash := fun he => hs.2 (mem_of_head? he)
  have hreads : Reads z host (pathOf rootPath ds) [b :: bs] [result] := ⟨hs.1, hu, trivial⟩
  have hmapped : normalizeMappedPath z host (pathOf rootPath ds) (b :: bs) n =
      .ok (extend (pathOf rootPath ds) result) := by
    unfold normalizeMappedPath
    rw [if_neg (by omega), if_neg hhead, if_neg (by omega), splitOn_eq_singleton hs.2]
    exact hreads.walk hfit
  unfold amigaWalk
  rw [if_neg (by omega)]
  simp only [takeWhile_cons, dropWhile_cons, hb, Bool.false_eq_true, if_false,
    length_nil, Function.iterate_zero, id_eq, splitOn_eq_singleton hs.2]
  unfold walkAmiga
  rw [if_neg hs.1, if_neg (by omega), hmapped]
  rfl

/-! ## The second pass -/

theorem splitOn_entry (hds : ∀ d ∈ ds, LinuxName d) (hh : LinuxName h) :
    (pathOf rootPath (ds ++ [h])).splitOn slash = [] :: (ds ++ [h]) := by
  have hplain : ∀ c ∈ ds ++ [h], Plain c :=
    forall_mem_append.mpr ⟨fun d hd => (hds d hd).plain, forall_mem_singleton.mpr hh.plain⟩
  cases ds with
  | nil => exact splitOn_pathOf_root hplain
  | cons d ds => exact splitOn_pathOf_root hplain

variable {floor : Name}

theorem normalizeMappedPath_entry (hds : ∀ d ∈ ds, LinuxName d) (hh : LinuxName h)
    (hlong : (pathOf rootPath (ds ++ [h])).length < pathMax) :
    normalizeMappedPath z host floor (pathOf rootPath (ds ++ [h])) n =
      walkMapped z host n rootPath (ds ++ [h]) := by
  unfold normalizeMappedPath
  rw [if_neg (by omega), if_pos (head_pathOf_root _), splitOn_entry hds hh, walkMapped_nil_cons]

variable {xs : List Name}

/-- Two lists of components of one length write the same path only if they are the same, as far
as all but the last are components. -/
theorem components_eq_of_pathOf {y : Name} (hds : ∀ d ∈ ds, LinuxName d) (hh : LinuxName h)
    (hxs : ∀ x ∈ xs, Plain x) (hlen : xs.length = ds.length)
    (he : pathOf rootPath (xs ++ [y]) = pathOf rootPath (ds ++ [h])) : xs = ds ∧ y = h := by
  cases xs with
  | nil =>
    obtain rfl : ds = [] := length_eq_zero_iff.mp hlen.symm
    have : slash :: y = slash :: h := he
    exact ⟨rfl, (cons.inj this).2⟩
  | cons x xs =>
  have hlong : 1 < (pathOf rootPath (x :: xs)).length := by
    have := two_mul_length_le hxs
    rw [length_cons] at this
    omega
  have hsplit := congrArg (splitOn slash) he
  rw [pathOf_concat, extend_of_long hlong, splitOn_append_slash, splitOn_pathOf_root hxs,
    splitOn_entry hds hh, cons_append, cons.injEq] at hsplit
  obtain ⟨hxd, hy⟩ := append_inj hsplit.2 hlen
  refine ⟨hxd, ?_⟩
  have hjoin : [slash].intercalate (y.splitOn slash) = y := intercalate_splitOn slash
  rw [hy] at hjoin
  simpa using hjoin.symm

variable {start : Name} {ss cs : List Name}

theorem Reads.length_eq (hr : Reads z host start ss cs) : ss.length = cs.length := by
  fun_induction Reads z host start ss cs with
  | case1 => rfl
  | case3 => exact absurd hr id
  | case2 start s ss c cs ih => rw [length_cons, length_cons, ih hr.2.2]

theorem Reads.plain (hr : Reads z host start ss cs) (hslash : ∀ s ∈ ss, slash ∉ s)
    (hcont : ∀ s ∈ ss, EscapeContained z s pathMax) : ∀ c ∈ cs, Plain c := by
  fun_induction Reads z host start ss cs with
  | case1 => simp
  | case3 => exact absurd hr id
  | case2 start s ss c cs ih =>
  obtain ⟨hs, hu, hrest⟩ := hr
  have hone := (unmap_oneComponent_iff hs (hslash s mem_cons_self)).mpr
    (hcont s mem_cons_self) c hu
  intro d hd
  rcases mem_cons.mp hd with rfl | hd
  · exact ⟨hone.ne_nil, hone.slash_notMem⟩
  · exact ih hrest (fun t ht => hslash t (mem_cons_of_mem s ht))
      (fun t ht => hcont t (mem_cons_of_mem s ht)) d hd

theorem Reads.append {xs' ys ys' : List Name} (hlen : xs.length = xs'.length) :
    Reads z host start (xs ++ ys) (xs' ++ ys') ↔
      Reads z host start xs xs' ∧ Reads z host (pathOf start xs') ys ys' := by
  induction xs generalizing start xs' with
  | nil =>
    obtain rfl : xs' = [] := length_eq_zero_iff.mp hlen.symm
    exact ⟨fun hr => ⟨trivial, hr⟩, fun hr => hr.2⟩
  | cons x xs ih =>
  cases xs' with
  | nil => simp at hlen
  | cons x' xs' =>
  have hlen' : xs.length = xs'.length := by simpa using hlen
  constructor
  · rintro ⟨hx, hu, hrest⟩
    obtain ⟨h1, h2⟩ := (ih hlen').mp hrest
    exact ⟨⟨hx, hu, h1⟩, h2⟩
  · rintro ⟨⟨hx, hu, h1⟩, h2⟩
    exact ⟨hx, hu, (ih hlen').mpr ⟨h1, h2⟩⟩

theorem reads_self_of_walk (hds : ∀ d ∈ ds, LinuxName d) (hh : LinuxName h)
    (hcont : ∀ d ∈ ds, EscapeContained z d pathMax)
    (hw : walkMapped z host n rootPath (ds ++ [h]) = .ok (pathOf rootPath (ds ++ [h]))) :
    Reads z host rootPath (ds ++ [h]) (ds ++ [h]) := by
  have hne : ∀ c ∈ ds ++ [h], c ≠ [] :=
    forall_mem_append.mpr ⟨fun d hd => (hds d hd).ne_nil, forall_mem_singleton.mpr hh.ne_nil⟩
  obtain ⟨cs, hr, hpath⟩ := reads_of_walk hne hw
  -- all but the last of what was read are components, and the last is the rest of the text
  have hlen : cs.length = ds.length + 1 := by
    have := hr.length_eq
    simpa using this.symm
  obtain ⟨xs, y, rfl⟩ : ∃ xs y, cs = xs ++ [y] :=
    ⟨cs.dropLast, cs.getLast (by rintro rfl; simp at hlen), (dropLast_concat_getLast _).symm⟩
  have hxs : xs.length = ds.length := by simpa using hlen
  obtain ⟨hfst, -⟩ := (Reads.append hxs.symm).mp hr
  have hplain := hfst.plain (fun d hd => (hds d hd).slash_notMem) hcont
  obtain ⟨rfl, rfl⟩ := components_eq_of_pathOf hds hh hplain hxs hpath.symm
  exact hr

/-! ## Beneath the volume root -/

theorem volumeRoot_beneath (hds : ∀ d ∈ ds, LinuxName d)
    (hfit : (pathOf rootPath ds).length < pathMax)
    (hv : volumeRootForPath host cat (pathOf rootPath ds) pathMax = .ok floor) :
    pathIsBeneath (pathOf rootPath ds) floor = true := by
  unfold volumeRootForPath at hv
  rw [normalizeLexicalAbsolutePath_pathOf hds hfit] at hv
  simp only at hv
  split at hv
  · next device hd =>
    obtain ⟨-, rfl⟩ := copyOut_eq_ok.mp hv
    have hb := find?_some hd
    simp only [Bool.and_eq_true] at hb
    exact hb.2
  cases hf : findMountForPath host cat (pathOf rootPath ds) pathMax with
  | error e => rw [hf] at hv; simp at hv
  | ok found =>
  rw [hf] at hv
  obtain ⟨-, rfl⟩ := copyOut_eq_ok.mp hv
  unfold findMountForPath at hf
  rw [normalizeLexicalAbsolutePath_pathOf hds hfit] at hf
  simp only at hf
  split at hf
  · simp at hf
  split at hf
  · simp at hf
  rename_i r d hbest
  simp only [Except.ok.injEq] at hf
  obtain ⟨-, rfl, -⟩ := hf
  exact (Selected.foldl r d hbest).2.1

variable {cwd : Name}

theorem lexicallyBeneath_extend (hcwd : Rooted cwd) (hb : pathIsBeneath cwd floor = true)
    : lexicallyBeneath floor (extend cwd h) = true := by
  unfold lexicallyBeneath
  simp only [Bool.or_eq_true, Bool.and_eq_true, beq_iff_eq, isPrefixOf_iff_prefix]
  by_cases hroot : floor = rootPath
  · exact Or.inl (Or.inl hroot)
  unfold pathIsBeneath at hb
  rw [if_neg hroot] at hb
  simp only [Bool.and_eq_true, Bool.or_eq_true, beq_iff_eq, isPrefixOf_iff_prefix] at hb
  obtain ⟨⟨t, rfl⟩, hend⟩ := hb
  refine Or.inr ⟨⟨t ++ separatorFor (floor ++ t) ++ h, by simp [extend]⟩, ?_⟩
  have hext : extend (floor ++ t) h = floor ++ (t ++ separatorFor (floor ++ t) ++ h) := by
    simp [extend]
  rw [hext, getElem?_append_right le_rfl, Nat.sub_self]
  rcases hend with hlen | hslash
  · -- the current directory is the root itself, and is not `/`
    have ht : t = [] := by
      rw [length_append] at hlen
      exact length_eq_zero_iff.mp (by omega)
    subst ht
    rw [append_nil] at hcwd ⊢
    have hlong : 1 < floor.length := hcwd.resolve_left hroot
    unfold separatorFor
    rw [if_pos hlong]
    rfl
  · cases t with
    | nil => simp at hslash
    | cons a u => simpa using hslash

/-! ## The bare name -/

variable {path final : Name}

theorem normalizeAmigaPath_of_walk (hwalk : amigaWalk z host cwd path n = .ok result)
    (hv : volumeRootForPath host cat cwd pathMax = .ok floor) (hview : cat.deviceView = false) :
    normalizeAmigaPath z host cat cwd path n = .ok final ↔
      normalizeMappedPathBeneath z host cat floor result n = .ok final := by
  unfold normalizeAmigaPath
  rw [hwalk]
  simp only [hv]
  cases hb : normalizeMappedPathBeneath z host cat floor result n with
  | ok r => simp
  | error failure =>
  simp only [reduceCtorEq, iff_false]
  split_ifs
  · split
    · unfold retryInView Catalog.deviceViewRoot
      rw [hview]
      simp
    · simp
  · simp

theorem normalizeAmigaPath_of_beneath (hwalk : amigaWalk z host cwd path n = .ok result)
    (hv : volumeRootForPath host cat cwd pathMax = .ok floor)
    (hb : normalizeMappedPathBeneath z host cat floor result n = .ok final) :
    normalizeAmigaPath z host cat cwd path n = .ok final := by
  unfold normalizeAmigaPath
  rw [hwalk]
  simp only [hv, hb]

theorem resolvePath_relative {st : PathState} {input : Name} (hc : colon ∉ input) (fuel : ℕ) :
    resolvePath z host n (fuel + 1) st input =
      some (normalizeAmigaPath z host st.cat st.session.cwd input n, st) := by
  have hhead : input.head? ≠ some colon := by
    intro hh
    exact hc (mem_of_head? hh)
  rw [resolvePath, if_neg hhead, if_neg fun h => hc h.1]

/-! ## Names that read as themselves -/

/-- A host name that its directory's decoder leaves alone: it opens no escape and no case variant
comes before it. -/
def ReadsItself (z : Zlib) (listing : Option (List Name)) (x : Name) : Prop :=
  match escapeMarker z x with
  | none => hostCaseVariantNeedsMapping listing x = false
  | some i => ((escapeText z (x.drop (i + 1))).map (x.take i ++ ·)).getD x = x

variable {dir : Option Directory} {x : Name}

theorem matchExistingCase_eq_self_iff :
    matchExistingCase (dir.map Directory.stream) x pathMax = x ↔
      hostCaseVariantNeedsMapping (dir.map Directory.stream) x = false := by
  refine ⟨fun hm => ?_, matchExistingCase_plain⟩
  by_contra hneeds
  rw [Bool.not_eq_false] at hneeds
  cases dir with
  | none => simp [hostCaseVariantNeedsMapping] at hneeds
  | some dir =>
  unfold matchExistingCase at hm
  simp only [Option.map_some] at hm hneeds
  rw [filter_length_caseVariants] at hm
  simp only [hostCaseVariantNeedsMapping, Bool.and_eq_true, bne_iff_ne, any_eq_true] at hneeds
  obtain ⟨⟨e, he, -⟩, hfst⟩ := hneeds
  obtain ⟨best, hbest⟩ := Option.isSome_iff_exists.mp (lexFirst_isSome he)
  rw [hbest] at hm hfst
  have hfits : best.length < pathMax := by
    obtain ⟨hmem, hdot, hdotDot, -⟩ := mem_caseVariants.mp (lexFirst_mem hbest)
    rcases dir.valid best hmem with rfl | rfl | hname
    · exact absurd rfl hdot
    · exact absurd rfl hdotDot
    · exact lt_of_le_of_lt hname.length_le (by decide)
  simp only [if_pos hfits] at hm
  exact hfst (by rw [hm])

theorem unmap_self_iff (hx : LinuxName x) :
    unmapComponent z (dir.map Directory.stream) x pathMax = .ok x ↔
      ReadsItself z (dir.map Directory.stream) x := by
  have hfit : x.length < pathMax := lt_of_le_of_lt hx.length_le (by decide)
  unfold ReadsItself
  cases hi : escapeMarker z x with
  | some i =>
    rw [unmapComponent_escape hi, copyOut_eq_ok]
    constructor
    · exact fun h => h.2
    · intro h
      exact ⟨by rw [h]; exact hfit, h⟩
  | none =>
  rw [← matchExistingCase_eq_self_iff]
  unfold unmapComponent
  rw [hostComponentForAmiga_linuxName hx, hi]
  rw [copyOut_eq_ok.mpr ⟨hfit, rfl⟩]
  simp only [Except.map, Except.ok.injEq]

def Steady (z : Zlib) (host : Host) (cs : List Name) : Prop :=
  ∀ xs x ys, cs = xs ++ x :: ys → ReadsItself z (host.listing (pathOf rootPath xs)) x

theorem reads_self_iff_steady (hcs : ∀ c ∈ cs, LinuxName c) :
    Reads z host rootPath cs cs ↔ Steady z host cs := by
  constructor
  · rintro hr xs x ys rfl
    obtain ⟨-, hrest⟩ := (Reads.append rfl).mp hr
    exact (unmap_self_iff (hcs x (by simp))).mp hrest.2.1
  intro hs
  -- read the path off from the left: what has been read so far is a prefix of it
  have key : ∀ ys xs, cs = xs ++ ys → Reads z host (pathOf rootPath xs) ys ys := by
    intro ys
    induction ys with
    | nil => exact fun _ _ => trivial
    | cons y ys ih =>
    intro xs hxy
    have hy := hcs y (by rw [hxy]; simp)
    refine ⟨hy.ne_nil, (unmap_self_iff hy).mpr (hs xs y ys hxy), ?_⟩
    rw [← pathOf_concat]
    exact ih (xs ++ [y]) (by rw [hxy]; simp)
  exact key cs [] rfl

/-! ## Agreement -/

/-- **Relative and volume-qualified names.** From a current directory, the spelling of a name
resolves to its host path if every component of that path reads as itself and the path is on its
volume. Without a device view that is necessary too, as long as the escapes the current
directory's own components open are contained. The volume-qualified name resolves to the path in
either case. -/
theorem resolvePath_relative_iff (z : Zlib) {host : Host} {cat : Catalog} {session : Session}
    {ds : List Name} {h s floor : Name} {n : ℕ} (hds : ∀ d ∈ ds, LinuxName d)
    (hh : LinuxName h) (hcwd : session.cwd = pathOf rootPath ds)
    (hmap : mapComponent z (host.listing session.cwd) h (amigaComponentLimit + 1) = .ok s)
    (hfloor : volumeRootForPath host cat session.cwd pathMax = .ok floor)
    (hfit : (pathOf rootPath (ds ++ [h])).length < n)
    (hmax : (pathOf rootPath (ds ++ [h])).length < pathMax) (fuel : ℕ) :
    (Steady z host (ds ++ [h]) →
      withinBaseFilesystem host cat floor (pathOf rootPath (ds ++ [h])) = .ok () →
      resolvePath z host n (fuel + 1) ⟨session, cat⟩ s =
        some (.ok (pathOf rootPath (ds ++ [h])), ⟨session, cat⟩)) ∧
    (cat.deviceView = false → (∀ d ∈ ds, EscapeContained z d pathMax) →
      resolvePath z host n (fuel + 1) ⟨session, cat⟩ s =
        some (.ok (pathOf rootPath (ds ++ [h])), ⟨session, cat⟩) →
      Steady z host (ds ++ [h]) ∧
        withinBaseFilesystem host cat floor (pathOf rootPath (ds ++ [h])) = .ok ()) ∧
    (∀ (blocks : Catalog) (records : List MountRecord) (name root : Name),
      cat = discoverMounts host blocks → OnceMounted host blocks records →
      NamesFree session cat → OutsideViews cat (pathOf rootPath (ds ++ [h])) →
      volumeRootForPath host cat (pathOf rootPath (ds ++ [h])) pathMax = .ok root →
      withinBaseFilesystem host cat root (pathOf rootPath (ds ++ [h])) = .ok () →
      name.length < pathMax →
      nameFromHostWithMappings z host cat (pathOf rootPath (ds ++ [h])) pathMax = .ok name →
      resolvePath z host n (fuel + 1) ⟨session, cat⟩ name =
        some (.ok (pathOf rootPath (ds ++ [h])), ⟨session, cat⟩)) := by
  have hcs : ∀ c ∈ ds ++ [h], LinuxName c := by
    exact forall_mem_append.mpr ⟨hds, forall_mem_singleton.mpr hh⟩
  have hpath : pathOf rootPath (ds ++ [h]) = extend (pathOf rootPath ds) h := pathOf_concat _ _ _
  have hle : (pathOf rootPath ds).length ≤ (pathOf rootPath (ds ++ [h])).length := by
    rw [hpath]
    exact length_le_extend _ _
  -- the first pass reads the spelling back
  have hspells : Spells z ((host.opendir session.cwd).map Directory.stream) h s :=
    spells_of_map hmap
  have hspell := hspells.component
  have hsplain : Plain s := ⟨hspells.ne_nil hh, fun hm => (hspell.2 slash hm).2 rfl⟩
  have hcolon : colon ∉ s := fun hm => (hspell.2 colon hm).1 rfl
  have hslen : s.length < pathMax := lt_of_le_of_lt hspell.1 (by decide)
  have hu : unmapComponent z (host.listing (pathOf rootPath ds)) s pathMax = .ok h := by
    rw [← hcwd]
    exact hspells.unmap hh (by decide)
  have hwalk : amigaWalk z host session.cwd s n = .ok (pathOf rootPath (ds ++ [h])) := by
    rw [hcwd, hpath]
    exact amigaWalk_spelling (by omega) hsplain hslen hu (by rw [← hpath]; exact hfit)
  have hbeneath : lexicallyBeneath floor (pathOf rootPath (ds ++ [h])) = true := by
    rw [hcwd] at hfloor
    rw [hpath]
    exact lexicallyBeneath_extend (rooted_pathOf fun d hd => (hds d hd).plain)
      (volumeRoot_beneath hds (by omega) hfloor)
  refine ⟨fun hsteady hin => ?_, fun hview hcont hres => ?_, ?_⟩
  · have hr := (reads_self_iff_steady hcs).mpr hsteady
    rw [resolvePath_relative hcolon]
    simp only [Option.some.injEq, Prod.mk.injEq, and_true]
    refine normalizeAmigaPath_of_beneath hwalk hfloor ?_
    unfold normalizeMappedPathBeneath
    rw [normalizeMappedPath_entry hds hh hmax, hr.walk hfit]
    simp only
    rw [if_pos hbeneath, hin]
    rfl
  · rw [resolvePath_relative hcolon] at hres
    simp only [Option.some.injEq, Prod.mk.injEq, and_true] at hres
    obtain ⟨hnorm, -, hin⟩ :=
      beneath_eq_ok ((normalizeAmigaPath_of_walk hwalk hfloor hview).mp hres)
    rw [normalizeMappedPath_entry hds hh hmax] at hnorm
    exact ⟨(reads_self_iff_steady hcs).mp (reads_self_of_walk hds hh hcont hnorm), hin⟩
  · intro blocks records name root hcat hM hfree ho hroot hin hlong hname
    exact resolve_ownName z hcat hM hfree hcs ho hfit hmax hroot hin hlong hname fuel

theorem resolvePath_relative_iff_first :
    resolvePath storedZlib oneDisk pathMax 1
        ⟨⟨ascii "/d", [none]⟩, discoverMounts oneDisk oneDiskBlocks⟩ (ascii "Notes") =
      some (.ok (ascii "/d/Notes"),
        ⟨⟨ascii "/d", [none]⟩, discoverMounts oneDisk oneDiskBlocks⟩) := by
  have hpath : pathOf rootPath ([ascii "d"] ++ [ascii "Notes"]) = ascii "/d/Notes" := by
    decide +kernel
  have hname : ∀ c ∈ [ascii "d"] ++ [ascii "Notes"], LinuxName c := by decide +kernel
  have hreads : Reads storedZlib oneDisk rootPath ([ascii "d"] ++ [ascii "Notes"])
      ([ascii "d"] ++ [ascii "Notes"]) :=
    ⟨by decide +kernel, by decide +kernel, by decide +kernel, by decide +kernel, trivial⟩
  have hres := (@resolvePath_relative_iff storedZlib oneDisk
    (discoverMounts oneDisk oneDiskBlocks) ⟨ascii "/d", [none]⟩ [ascii "d"] (ascii "Notes")
    (ascii "Notes") rootPath pathMax (by decide +kernel) (by decide +kernel) (by decide +kernel)
    (by decide +kernel)
    (by decide +kernel) (by decide +kernel) (by decide +kernel) 0).1
    ((reads_self_iff_steady hname).mp hreads) (by decide +kernel)
  rwa [hpath] at hres

/-- `/d` holds `Notes` and `notes`. The spelling of `notes` is read back at first, but the second
pass takes the host path for an AmigaDOS one and finds `Notes`. The volume-qualified name of the
same object is not read twice. -/
theorem relative_finds_other_entry :
    mapComponent storedZlib (oneDisk.listing (ascii "/d")) (ascii "notes") 108 =
        .ok (ascii "^NZXXIZLTAA") ∧
      (resolvePath storedZlib oneDisk pathMax 1
        ⟨⟨ascii "/d", [none]⟩, discoverMounts oneDisk oneDiskBlocks⟩
        (ascii "^NZXXIZLTAA")).map Prod.fst = some (.ok (ascii "/d/Notes")) ∧
      (resolvePath storedZlib oneDisk pathMax 1
        ⟨⟨ascii "/d", [none]⟩, discoverMounts oneDisk oneDiskBlocks⟩
        (ascii "sda2:d/^NZXXIZLTAA")).map Prod.fst = some (.ok (ascii "/d/notes")) := by
  refine ⟨?_, ?_, ?_⟩ <;> decide +kernel

end AceShell
