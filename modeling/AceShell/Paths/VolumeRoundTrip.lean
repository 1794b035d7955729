import AceShell.Paths.Volume

/-!
# The volume round trip

A host path is named by the mount it lies on, and the name resolves to the path again. The mount
with the longest mount point is selected (`findMount_spec`); what the path has below it is a list
of components (`beneath_components`), which the mapper spells and the decoder reads back from the
same root.
-/

namespace AceShell

open Text List

variable {z : Zlib} {host : Host} {n : ℕ}

/-! ## The text of a path -/

variable {start : Name} {cs : List Name}

theorem pathOf_of_long (hs : 1 < start.length) (hcs : ∀ c ∈ cs, Plain c)
    : pathOf start cs = start ++ (cs.map (slash :: ·)).flatten := by
  induction cs generalizing start with
  | nil => simp
  | cons c cs ih =>
    rw [pathOf_cons, ih (hs.trans_le (length_le_extend start c))
      fun d hd => hcs d (mem_cons_of_mem c hd), extend_of_long hs]
    simp

theorem pathOf_root (hcs : ∀ c ∈ cs, Plain c) : pathOf rootPath cs = slash :: joined cs := by
  cases cs with
  | nil => rfl
  | cons c cs =>
  have hc := hcs c mem_cons_self
  rw [pathOf_cons, pathOf_of_long (one_lt_length_extend (by decide) hc.1)
    fun d hd => hcs d (mem_cons_of_mem c hd), ← flatten_eq_joined]
  rfl

theorem segments_joined (hcs : ∀ c ∈ cs, Plain c) : segments (joined cs) = cs := by
  unfold segments
  cases cs with
  | nil => rfl
  | cons c cs =>
    rw [splitOn_joined fun d hd => (hcs d hd).2, filter_eq_self]
    intro d hd
    simpa using (hcs d hd).1

theorem head?_joined (hcs : ∀ c ∈ cs, Plain c) : (joined cs).head? ≠ some slash := by
  cases cs with
  | nil => simp [joined]
  | cons c cs =>
  obtain ⟨hne, hslash⟩ := hcs c mem_cons_self
  obtain ⟨b, bs, rfl⟩ := exists_cons_of_ne_nil hne
  rw [← flatten_eq_joined]
  intro hb
  exact hslash (by simp [Option.some.inj hb])

theorem dropWhile_joined (hcs : ∀ c ∈ cs, Plain c) :
    (joined cs).dropWhile (· == slash) = joined cs := by
  have hhead := head?_joined hcs
  cases hj : joined cs with
  | nil => rfl
  | cons b bs =>
    rw [hj] at hhead
    exact dropWhile_cons_of_neg (by simpa using hhead)

theorem dropWhile_slash_joined (hcs : ∀ c ∈ cs, Plain c) :
    (slash :: joined cs).dropWhile (· == slash) = joined cs := by
  rw [dropWhile_cons, if_pos (by simp), dropWhile_joined hcs]

variable {mount : Name} {rel : List Name}

theorem drop_mount (hm : Rooted mount) (hrel : ∀ c ∈ rel, Plain c) :
    (pathOf mount rel).drop mount.length = joined rel ∨
      (pathOf mount rel).drop mount.length = slash :: joined rel := by
  rcases hm with rfl | hlong
  · rw [pathOf_root hrel]
    exact Or.inl rfl
  rw [pathOf_of_long hlong hrel, drop_left]
  cases rel with
  | nil => exact Or.inl rfl
  | cons c cs =>
    rw [← flatten_eq_joined]
    exact Or.inr rfl

theorem dropWhile_drop_mount (hm : Rooted mount) (hrel : ∀ c ∈ rel, Plain c) :
    ((pathOf mount rel).drop mount.length).dropWhile (· == slash) = joined rel := by
  rcases drop_mount hm hrel with h | h
  · rw [h, dropWhile_joined hrel]
  · rw [h, dropWhile_slash_joined hrel]

theorem segments_drop_mount (hm : Rooted mount) (hrel : ∀ c ∈ rel, Plain c) :
    segments ((pathOf mount rel).drop mount.length) = rel := by
  rcases drop_mount hm hrel with h | h
  · rw [h, segments_joined hrel]
  have hsplit : segments (slash :: joined rel) = segments (joined rel) := by
    unfold segments
    rw [← nil_append (slash :: joined rel), splitOn_append_slash]
    simp
  rw [h, hsplit, segments_joined hrel]

/-! ## Beneath a mount point -/

variable {ms : List Name}

theorem rooted_pathOf (hms : ∀ m ∈ ms, Plain m) : Rooted (pathOf rootPath ms) := by
  cases ms with
  | nil => exact Or.inl rfl
  | cons m ms =>
    have := two_mul_length_le hms
    rw [length_cons] at this
    exact Or.inr (by omega)

theorem beneath_components (hcs : ∀ c ∈ cs, Plain c) (hms : ∀ m ∈ ms, Plain m)
    (hb : pathIsBeneath (pathOf rootPath cs) (pathOf rootPath ms) = true) :
    ∃ rel, cs = ms ++ rel := by
  cases ms with
  | nil => exact ⟨cs, rfl⟩
  | cons m ms =>
  have hlong := two_mul_length_le hms
  have hne : pathOf rootPath (m :: ms) ≠ rootPath := by
    intro he
    rw [he] at hlong
    simp [rootPath] at hlong
    omega
  unfold pathIsBeneath at hb
  rw [if_neg hne] at hb
  simp only [Bool.and_eq_true, Bool.or_eq_true, beq_iff_eq, isPrefixOf_iff_prefix] at hb
  obtain ⟨⟨t, ht⟩, hend⟩ := hb
  -- a path as long as its mount point is the mount point; a longer one goes on behind a slash
  have hsplit : (pathOf rootPath cs).splitOn slash =
      (pathOf rootPath (m :: ms)).splitOn slash ∨ ∃ u,
        (pathOf rootPath cs).splitOn slash = (pathOf rootPath (m :: ms)).splitOn slash ++ u := by
    rcases hend with hlen | hslash
    · left
      have : t = [] := by
        rw [← ht, length_append] at hlen
        exact length_eq_zero_iff.mp (by omega)
      rw [← ht, this, append_nil]
    right
    rw [← ht, getElem?_append_right le_rfl, Nat.sub_self] at hslash
    cases t with
    | nil => simp at hslash
    | cons a u =>
      obtain rfl := Option.some.inj hslash
      exact ⟨u.splitOn slash, by rw [← ht, splitOn_append_slash]⟩
  rw [splitOn_pathOf_root hms] at hsplit
  cases cs with
  | nil =>
    have hroot : (pathOf rootPath []).splitOn slash = [[], []] := by decide
    have hm := (hms m mem_cons_self).1
    rw [hroot] at hsplit
    rcases hsplit with h | ⟨u, h⟩ <;> simp at h <;> exact absurd h.1 hm
  | cons c cs =>
  rw [splitOn_pathOf_root hcs] at hsplit
  rcases hsplit with h | ⟨u, h⟩
  · exact ⟨[], by simpa using h⟩
  · exact ⟨u, by simpa using h⟩

/-! ## Selecting the mount -/

/-- What the search has selected so far is a record above the path whose device is known. -/
def Selected (cat : Catalog) (canonical : Name) (records : List MountRecord)
    (best : Option (MountRecord × Device)) : Prop :=
  ∀ record device, best = some (record, device) →
    record ∈ records ∧ pathIsBeneath canonical record.mountPath = true ∧
      cat.deviceForId record.deviceId = some device

variable {cat : Catalog} {canonical : Name} {records : List MountRecord} {record : MountRecord}

theorem Selected.better {best : Option (MountRecord × Device)}
    (hs : Selected cat canonical records best) (hr : record ∈ records) :
    Selected cat canonical records (betterMount cat canonical best record) := by
  unfold betterMount
  by_cases hb : pathIsBeneath canonical record.mountPath = true
  · rw [if_pos hb]
    cases hd : cat.deviceForId record.deviceId with
    | none => exact hs
    | some device =>
    split_ifs
    · rintro r d he
      cases he
      exact ⟨hr, hb, hd⟩
    · exact hs
  · rw [if_neg hb]
    exact hs

theorem Selected.foldl :
    Selected cat canonical records (records.foldl (betterMount cat canonical) none) :=
  foldlRecOn records _ nofun fun _ hs _ hr => hs.better hr

variable {device : Device}

theorem findMount_spec (hinfo : host.mountinfo = some records) (hcs : ∀ c ∈ cs, LinuxName c)
    (hfit : (pathOf rootPath cs).length < pathMax)
    (hf : findMountForPath host cat (pathOf rootPath cs) pathMax =
      .ok (canonical, record, device)) :
    canonical = pathOf rootPath cs ∧ record ∈ records ∧
      pathIsBeneath (pathOf rootPath cs) record.mountPath = true ∧
      cat.deviceForId record.deviceId = some device := by
  unfold findMountForPath at hf
  rw [normalizeLexicalAbsolutePath_pathOf hcs hfit, hinfo] at hf
  simp only at hf
  cases hbest : records.foldl (betterMount cat (pathOf rootPath cs)) none with
  | none => rw [hbest] at hf; simp at hf
  | some best =>
  rw [hbest] at hf
  obtain ⟨r, d⟩ := best
  simp only [Except.ok.injEq, Prod.mk.injEq] at hf
  obtain ⟨rfl, rfl, rfl⟩ := hf
  exact ⟨rfl, Selected.foldl r d hbest⟩

/-! ## Naming -/

/-- Every file system is mounted once, whole, at a normalized path, and the block devices were found
first. -/
structure OnceMounted (host : Host) (blocks : Catalog) (records : List MountRecord) : Prop where
  info : host.mountinfo = some records
  once : ∀ r ∈ records, ∀ r' ∈ records, r.deviceId = r'.deviceId → r = r'
  whole : ∀ r ∈ records, r.root = rootPath
  normalized : ∀ r ∈ records, ∃ ms, (∀ m ∈ ms, LinuxName m) ∧ r.mountPath = pathOf rootPath ms
  unmounted : ∀ device ∈ blocks.devices, device.mountPath = []

variable {blocks : Catalog}

theorem OnceMounted.mountPath_ne_nil (hM : OnceMounted host blocks records)
    : ∀ r ∈ records, r.mountPath ≠ [] := by
  intro r hr he
  obtain ⟨ms, -, hms⟩ := hM.normalized r hr
  have := head_pathOf_root ms
  rw [← hms, he] at this
  simp at this

def OutsideViews (cat : Catalog) (path : Name) : Prop :=
  ∀ device ∈ cat.devices, device.viewPath = [] ∨ pathIsBeneath path device.viewPath = false

variable {path : Name}

theorem OutsideViews.foldl {devices : List Device}
    (ho : ∀ device ∈ devices, device.viewPath = [] ∨ pathIsBeneath path device.viewPath = false) :
    devices.foldl (betterView path) none = none := by
  refine foldlRecOn (motive := (· = none)) devices _ rfl fun best hbest d hd => ?_
  unfold betterView
  rw [if_neg, hbest]
  rintro ⟨hne, hb⟩
  rcases ho d hd with h | h
  · exact hne h
  · rw [h] at hb
    simp at hb

theorem OutsideViews.find? (ho : OutsideViews cat path) :
    (cat.devices.find? fun device =>
      device.viewPath != [] && pathIsBeneath path device.viewPath) = none := by
  rw [find?_eq_none]
  intro device hd
  rcases ho device hd with h | h <;> simp [h]

variable {root : Name}

theorem volumeRootForPath_spec (hcs : ∀ c ∈ cs, LinuxName c)
    (hfit : (pathOf rootPath cs).length < pathMax) (ho : OutsideViews cat (pathOf rootPath cs))
    (hv : volumeRootForPath host cat (pathOf rootPath cs) pathMax = .ok root) :
    ∃ canonical record device, findMountForPath host cat (pathOf rootPath cs) pathMax =
      .ok (canonical, record, device) ∧ root = record.mountPath := by
  unfold volumeRootForPath at hv
  rw [normalizeLexicalAbsolutePath_pathOf hcs hfit] at hv
  simp only [ho.find?] at hv
  cases hf : findMountForPath host cat (pathOf rootPath cs) pathMax with
  | error e => rw [hf] at hv; simp at hv
  | ok found =>
    obtain ⟨canonical, record, device⟩ := found
    rw [hf] at hv
    exact ⟨canonical, record, device, rfl, (copyOut_eq_ok.mp hv).2.symm⟩

theorem aliasOf_spec {aliasName : Name} (ha : cat.aliasOf device = .ok aliasName) :
    cat.lookup aliasName = .unique ∧ device.aliasMatches aliasName = true := by
  unfold Catalog.aliasOf at ha
  unfold Device.aliasMatches
  split_ifs at ha with h1 h2 h3 <;> obtain rfl := Except.ok.inj ha
  · exact ⟨h1.2, by simp [h1.1, caseEq_refl]⟩
  · exact ⟨h2, by simp [caseEq_refl]⟩
  · exact ⟨h3.2, by simp [h3.1, caseEq_refl]⟩

variable {name : Name}

theorem lookup_unique (hl : cat.lookup name = .unique) :
    validAlias name = true ∧ cat.devices.countP (·.aliasMatches name) = 1 := by
  unfold Catalog.lookup at hl
  split_ifs at hl with hv
  refine ⟨hv, ?_⟩
  split at hl
  · simp at hl
  · next hcnt => exact hcnt
  · simp at hl

theorem validAlias_spec (hv : validAlias name = true) : name ≠ [] ∧ colon ∉ name := by
  unfold validAlias at hv
  simp only [Bool.and_eq_true, bne_iff_ne, all_eq_true] at hv
  exact ⟨hv.1.1, fun hm => (hv.2 colon hm).1.1.2 rfl⟩

theorem head?_named (hne : name ≠ []) (hcolon : colon ∉ name) (rest : Name) :
    (name ++ colon :: rest).head? ≠ some colon := by
  rw [head?_append_of_ne_nil _ hne]
  exact fun h => hcolon (mem_of_head? h)

theorem nameFromPath_spec {raw : Name} (hcat : cat = discoverMounts host blocks)
    (hM : OnceMounted host blocks records) (hcs : ∀ c ∈ cs, LinuxName c)
    (hfit : (pathOf rootPath cs).length < pathMax) (ho : OutsideViews cat (pathOf rootPath cs))
    (hf : findMountForPath host cat (pathOf rootPath cs) pathMax = .ok (canonical, record, device))
    (hraw : nameFromPath host cat (pathOf rootPath cs) pathMax = .ok raw) :
    ∃ rel aliasName, Rooted record.mountPath ∧
      pathOf rootPath cs = pathOf record.mountPath rel ∧ (∀ c ∈ rel, LinuxName c) ∧
      cat.aliasOf device = .ok aliasName ∧
      device.mountPath = record.mountPath ∧ device ∈ cat.devices ∧
      raw = aliasName ++ colon :: joined rel := by
  subst hcat
  obtain ⟨rfl, hr, hbeneath, hdev⟩ := findMount_spec hM.info hcs hfit hf
  obtain ⟨ms, hms, hmount⟩ := hM.normalized record hr
  rw [hmount] at hbeneath
  obtain ⟨rel, rfl⟩ := beneath_components (fun c hc => (hcs c hc).plain)
    (fun m hm => (hms m hm).plain) hbeneath
  have hrel : ∀ c ∈ rel, LinuxName c := fun c hc => hcs c (mem_append_right _ hc)
  have hroot : Rooted record.mountPath := by
    rw [hmount]
    exact rooted_pathOf fun m hm => (hms m hm).plain
  have hpath : pathOf rootPath (ms ++ rel) = pathOf record.mountPath rel := by
    rw [pathOf_append, hmount]
  unfold nameFromPath at hraw
  rw [normalizeLexicalAbsolutePath_pathOf hcs hfit] at hraw
  simp only [OutsideViews.foldl ho, hf] at hraw
  cases halias : (discoverMounts host blocks).aliasOf device with
  | error e => rw [halias] at hraw; simp at hraw
  | ok aliasName =>
  rw [halias] at hraw
  simp only at hraw
  split_ifs at hraw
  unfold appendRelativePath at hraw
  rw [hM.whole record hr, hpath, dropWhile_drop_mount hroot fun c hc => (hrel c hc).plain] at hraw
  have htext : ([slash].dropWhile (· == slash) : Name) = [] := by decide
  simp only [rootPath, htext, ne_eq, not_true_eq_false, false_and, if_false, nil_append] at hraw
  cases hcopy : copyOut (joined rel) (pathMax - (aliasName.length + 1)) with
  | error e => rw [hcopy] at hraw; simp [Except.map] at hraw
  | ok text =>
  rw [hcopy] at hraw
  obtain ⟨-, rfl⟩ := copyOut_eq_ok.mp hcopy
  simp only [Except.map, Except.ok.injEq] at hraw
  exact ⟨rel, aliasName, hroot, hpath, hrel, rfl,
    discoverMounts_device hM.info hM.once hM.mountPath_ne_nil hM.unmounted hr hdev,
    mem_of_find?_eq_some hdev, hraw.symm⟩

/-! ## Resolving -/

theorem root_of_unique (hl : cat.lookup name = .unique) (hmem : device ∈ cat.devices)
    (hmatch : device.aliasMatches name = true) (hmount : device.mountPath ≠ [])
    (hfit : device.mountPath.length < n) :
    Catalog.root host cat name n = (.ok device.mountPath, cat) := by
  obtain ⟨hv, hcnt⟩ := lookup_unique hl
  have hdev : device ∈ cat.devices.filter (·.aliasMatches name) := mem_filter.mpr ⟨hmem, hmatch⟩
  have hfilter : cat.devices.filter (·.aliasMatches name) = [device] := by
    rw [countP_eq_length_filter, length_eq_one_iff] at hcnt
    obtain ⟨d, hd⟩ := hcnt
    rw [hd] at hdev ⊢
    rw [mem_singleton.mp hdev]
  have hcopy : copyOut device.mountPath n = .ok device.mountPath := copyOut_eq_ok.mpr ⟨hfit, rfl⟩
  have hensure : ensureDeviceMount host device = .ok device := by
    unfold ensureDeviceMount
    rw [if_pos hmount]
  have hselect : selectedViewRoot host device = .ok device.mountPath := by
    unfold selectedViewRoot
    split
    · rw [if_pos hmount]
    · rw [if_neg hmount]
  have hsame : (cat.devices.map fun d => if d.aliasMatches name then device else d) =
      cat.devices := by
    conv_rhs => rw [← map_id cat.devices]
    apply map_congr_left
    intro d hd
    split_ifs with hm
    · have : d ∈ cat.devices.filter (·.aliasMatches name) := mem_filter.mpr ⟨hd, hm⟩
      rw [hfilter] at this
      exact (mem_singleton.mp this).symm
    · rfl
  unfold Catalog.root
  rw [if_pos hv, hfilter]
  simp only
  by_cases hview : cat.deviceView = true
  · rw [if_pos hview, hselect]
    simp only [hcopy]
  · rw [if_neg hview, hensure]
    simp only [hcopy, hsame]

theorem lexicallyBeneath_pathOf (hm : Rooted mount) (hrel : ∀ c ∈ rel, Plain c)
    : lexicallyBeneath mount (pathOf mount rel) = true := by
  unfold lexicallyBeneath
  simp only [Bool.or_eq_true, Bool.and_eq_true, beq_iff_eq, isPrefixOf_iff_prefix]
  rcases hm with rfl | hlong
  · exact Or.inl (Or.inl rfl)
  cases rel with
  | nil => exact Or.inl (Or.inr rfl)
  | cons c cs =>
    refine Or.inr ⟨prefix_pathOf _ _, ?_⟩
    rw [pathOf_of_long hlong hrel, getElem?_append_right le_rfl, Nat.sub_self]
    rfl

variable {ss : List Name}

theorem beneath_of_reads (hm : Rooted mount) (hrel : ∀ c ∈ rel, Plain c)
    (hr : Reads z host mount ss rel) (hss : ∀ s ∈ ss, Plain s)
    (hlong : (joined ss).length < pathMax * 2) (hfit : (pathOf mount rel).length < n)
    (hin : withinBaseFilesystem host cat mount (pathOf mount rel) = .ok ()) :
    normalizeMappedPathBeneath z host cat mount (joined ss) n = .ok (pathOf mount rel) := by
  have hwalk : walkMapped z host n mount ((joined ss).splitOn slash) = .ok (pathOf mount rel) := by
    cases ss with
    | nil =>
      exact hr.walk hfit
    | cons s ss =>
      rw [splitOn_joined fun t ht => (hss t ht).2]
      exact hr.walk hfit
  have hbase : ¬ n ≤ mount.length := by
    have := length_le_pathOf mount rel
    omega
  unfold normalizeMappedPathBeneath normalizeMappedPath
  rw [if_neg (by omega), if_neg (head?_joined hss), if_neg hbase, hwalk]
  simp only
  rw [if_pos (lexicallyBeneath_pathOf hm hrel), hin]
  rfl

theorem Reads.ne_nil (hr : Reads z host start ss cs) : ∀ s ∈ ss, s ≠ [] := by
  fun_induction Reads z host start ss cs with
  | case1 => simp
  | case3 => exact absurd hr id
  | case2 start s ss c cs ih =>
    obtain ⟨hs, -, hrest⟩ := hr
    exact forall_mem_cons.mpr ⟨hs, ih hrest⟩

/-- No device answers to the name of an assign, to one too long for the resolver's buffer, or to the
clipboard's. -/
structure NamesFree (session : Session) (cat : Catalog) : Prop where
  no_assign : ∀ device ∈ cat.devices, ∀ name, device.aliasMatches name = true →
    session.findAssign name = none
  short : ∀ device ∈ cat.devices, ∀ name, device.aliasMatches name = true → name.length < maxName
  not_clips : ∀ device ∈ cat.devices, ∀ name, device.aliasMatches name = true →
    caseEq name clipsName = false

theorem resolve_ownName (z : Zlib) {host : Host} (hcat : cat = discoverMounts host blocks)
    (hM : OnceMounted host blocks records) {session : Session} (hfree : NamesFree session cat)
    (hcs : ∀ c ∈ cs, LinuxName c) (ho : OutsideViews cat (pathOf rootPath cs)) {n : ℕ}
    (hn : (pathOf rootPath cs).length < n) (hfit : (pathOf rootPath cs).length < pathMax)
    (hroot : volumeRootForPath host cat (pathOf rootPath cs) pathMax = .ok root)
    (hin : withinBaseFilesystem host cat root (pathOf rootPath cs) = .ok ())
    (hlong : name.length < pathMax)
    (hname : nameFromHostWithMappings z host cat (pathOf rootPath cs) pathMax = .ok name)
    (fuel : ℕ) :
    resolvePath z host n (fuel + 1) ⟨session, cat⟩ name =
      some (.ok (pathOf rootPath cs), ⟨session, cat⟩) := by
  subst hcat
  obtain ⟨canonical, record, device, hf, rfl⟩ := volumeRootForPath_spec hcs hfit ho hroot
  -- the name is the device's alias and spellings that read back
  unfold nameFromHostWithMappings at hname
  cases hraw : nameFromPath host (discoverMounts host blocks) (pathOf rootPath cs) pathMax with
  | error e => rw [hraw] at hname; simp at hname
  | ok raw =>
  obtain ⟨rel, aliasName, hrooted, hpath, hrel, halias, hmount, hmem, rfl⟩ :=
    nameFromPath_spec rfl hM hcs hfit ho hf hraw
  obtain ⟨huniq, hmatch⟩ := aliasOf_spec halias
  obtain ⟨hvalid, -⟩ := lookup_unique huniq
  obtain ⟨hne, hcolon⟩ := validAlias_spec hvalid
  have hplain : ∀ c ∈ rel, Plain c := fun c hc => (hrel c hc).plain
  rw [hraw] at hname
  rw [normalizePath_pathOf hcs hfit] at hname
  simp only at hname
  rw [hroot] at hname
  simp only at hname
  rw [takeWhile_bne_append hcolon, dropWhile_bne_append hcolon, drop_succ_cons, drop_zero,
    segments_joined hplain, hpath, segments_drop_mount hrooted hplain] at hname
  split_ifs at hname
  obtain ⟨ss, hr, hspell, rfl⟩ := reads_of_mapComponents hrooted hrel hname
  have hss : ∀ s ∈ ss, Plain s := fun s hs =>
    ⟨hr.ne_nil s hs, fun hm => (hspell s hs slash hm).2 rfl⟩
  -- the resolver finds the device and walks from the same root
  have hafter : afterColon (aliasName ++ colon :: joined ss) = joined ss := by
    unfold afterColon
    rw [dropWhile_bne_append hcolon, drop_succ_cons, drop_zero, dropWhile_joined hss]
  have hlen : (joined ss).length < pathMax * 2 := by
    simp only [length_append, length_cons] at hlong
    omega
  have hmountfit : record.mountPath.length < pathMax := by
    omega
  have hbeneath : normalizeMappedPathBeneath z host (discoverMounts host blocks)
      record.mountPath (joined ss) n = .ok (pathOf record.mountPath rel) := by
    rw [hpath] at hn hin
    exact beneath_of_reads hrooted hplain hr hss hlen hn hin
  have hnone : device.mountPath ≠ [] := by
    rw [hmount]
    rcases hrooted with h | h
    · rw [h]
      decide
    · rintro he
      rw [he] at h
      simp at h
  have hclips : session.repairClips host aliasName = session := by
    unfold Session.repairClips
    rw [if_neg]
    rintro ⟨-, hc⟩
    rw [hfree.not_clips device hmem aliasName hmatch] at hc
    simp at hc
  rw [resolvePath, if_neg (head?_named hne hcolon _), takeWhile_bne_append hcolon,
    if_pos ⟨by simp, hfree.short device hmem aliasName hmatch⟩]
  unfold resolveNamed
  simp only [hclips, hfree.no_assign device hmem aliasName hmatch, huniq]
  unfold resolveDevice
  simp only [root_of_unique huniq hmem hmatch hnone (hmount ▸ hmountfit), hmount, hafter,
    hbeneath, hpath]

/-- **Volume-level round trip.** A normalized host path that lies on its volume and in no device
view resolves from its own name, whether or not it exists. -/
theorem resolvePath_nameFromHost (z : Zlib) {host : Host} {blocks : Catalog}
    {records : List MountRecord} (hM : OnceMounted host blocks records) {session : Session}
    (hfree : NamesFree session (discoverMounts host blocks)) {cs : List Name}
    (hcs : ∀ c ∈ cs, LinuxName c)
    (ho : OutsideViews (discoverMounts host blocks) (pathOf rootPath cs)) {name root : Name} {n : ℕ}
    (hn : (pathOf rootPath cs).length < n) (hfit : (pathOf rootPath cs).length < pathMax)
    (hroot : volumeRootForPath host (discoverMounts host blocks) (pathOf rootPath cs) pathMax =
      .ok root)
    (hin : withinBaseFilesystem host (discoverMounts host blocks) root (pathOf rootPath cs) =
      .ok ()) (hlong : name.length < pathMax)
    (hname : nameFromHostWithMappings z host (discoverMounts host blocks) (pathOf rootPath cs)
      pathMax = .ok name) (fuel : ℕ) :
    resolvePath z host n (fuel + 1) ⟨session, discoverMounts host blocks⟩ name =
      some (.ok (pathOf rootPath cs), ⟨session, discoverMounts host blocks⟩) :=
  resolve_ownName z rfl hM hfree hcs ho hn hfit hroot hin hlong hname fuel

/-! ## Sample volumes -/

def blockDevice (kernelName label viewPath : Name) (deviceId : ℕ) : Device :=
  ⟨kernelName, ascii "/dev/" ++ kernelName, ascii "ext4", [], label, deviceId, [], [], viewPath⟩

def wholeMount (deviceId : ℕ) (mountPath : Name) : MountRecord :=
  ⟨deviceId, rootPath, mountPath, ascii "ext4", []⟩

/-- A host on which everything exists, on the device `dev` says, and `/d` holds two names that
differ in case. -/
def sampleHost (records : List MountRecord) (dev : Name → ℕ) (clipboard : Option Name) : Host where
  opendir := fun path => if path = ascii "/d" then some notesDir else none
  stat := fun path => if path = [] then .error .enoent else .ok ⟨dev path, .directory⟩
  access := fun path => path != []
  mountinfo := some records
  mountRoot := fun _ => none
  clipboardRoot := clipboard
  stat_nil := rfl

/-- One disk, mounted at the root. -/
def oneDisk : Host := sampleHost [wholeMount 1 rootPath] (fun _ => 1) none

def oneDiskBlocks : Catalog := ⟨[blockDevice (ascii "sda2") [] [] 1], false⟩

theorem oneDisk_onceMounted : OnceMounted oneDisk oneDiskBlocks [wholeMount 1 rootPath] where
  info := rfl
  once := by decide
  whole := by decide
  normalized := by
    intro r hr
    rw [mem_singleton.mp hr]
    exact ⟨[], by simp, rfl⟩
  unmounted := by decide

theorem oneDisk_aliasMatches : ∀ device ∈ (discoverMounts oneDisk oneDiskBlocks).devices,
    ∀ name, device.aliasMatches name = true → caseEq (ascii "sda2") name = true := by
  have hdevs : (discoverMounts oneDisk oneDiskBlocks).devices =
      [⟨ascii "sda2", ascii "/dev/sda2", ascii "ext4", [], [], 1, rootPath, rootPath, []⟩] := by
    decide
  intro device hd name hm
  rw [hdevs] at hd
  rw [mem_singleton.mp hd] at hm
  simpa [Device.aliasMatches] using hm

theorem oneDisk_namesFree (cwd : Name) :
    NamesFree ⟨cwd, [none]⟩ (discoverMounts oneDisk oneDiskBlocks) where
  no_assign := by
    intro device _ name _
    rfl
  short := by
    intro device hd name hm
    rw [← caseEq_length (oneDisk_aliasMatches device hd name hm)]
    decide
  not_clips := by
    intro device hd name hm
    by_contra hc
    rw [Bool.not_eq_false] at hc
    have := caseEq_length (caseEq_trans (oneDisk_aliasMatches device hd name hm) hc)
    revert this
    decide

theorem resolvePath_nameFromHost_notes :
    nameFromHostWithMappings storedZlib oneDisk (discoverMounts oneDisk oneDiskBlocks)
        (ascii "/d/notes") pathMax = .ok (ascii "sda2:d/^NZXXIZLTAA") ∧
      resolvePath storedZlib oneDisk pathMax 1
        ⟨⟨rootPath, [none]⟩, discoverMounts oneDisk oneDiskBlocks⟩ (ascii "sda2:d/^NZXXIZLTAA") =
        some (.ok (ascii "/d/notes"),
          ⟨⟨rootPath, [none]⟩, discoverMounts oneDisk oneDiskBlocks⟩) := by
  have hname : nameFromHostWithMappings storedZlib oneDisk (discoverMounts oneDisk oneDiskBlocks)
      (pathOf rootPath [ascii "d", ascii "notes"]) pathMax =
        .ok (ascii "sda2:d/^NZXXIZLTAA") := by decide +kernel
  have hres := resolvePath_nameFromHost storedZlib oneDisk_onceMounted (oneDisk_namesFree rootPath)
    (by decide +kernel) (by unfold OutsideViews; decide +kernel)
    (show _ < pathMax by decide +kernel) (by decide +kernel)
    (show _ = Except.ok rootPath by decide +kernel) (by decide +kernel) (by decide +kernel) hname 0
  exact ⟨hname, hres⟩

/-- Three ways a name does not lead back. A disk labelled `CLIPS` is shadowed by the clipboard's
assign; a path that a link takes to another disk is not on the volume it is named after; a path
in a device's private view is named after the device but resolved from its mount point. -/
theorem nameFromHost_not_resolved :
    (let host := sampleHost [wholeMount 1 (ascii "/mnt/c")] (fun _ => 1) (some (ascii "/tmp/aros"))
     let cat := discoverMounts host ⟨[blockDevice (ascii "sdb1") (ascii "CLIPS") [] 1], false⟩
     nameFromHostWithMappings storedZlib host cat (ascii "/mnt/c/x") pathMax =
         .ok (ascii "CLIPS:x") ∧
       (resolvePath storedZlib host pathMax 2 ⟨⟨rootPath, [none]⟩, cat⟩
         (ascii "CLIPS:x")).map Prod.fst = some (.ok (ascii "/tmp/aros/x"))) ∧
    (let host := sampleHost [wholeMount 1 rootPath, wholeMount 2 (ascii "/mnt/o")]
       (fun path => if path = ascii "/l/x" then 2 else 1) none
     let cat := discoverMounts host
       ⟨[blockDevice (ascii "sda2") [] [] 1, blockDevice (ascii "sdb1") [] [] 2], false⟩
     nameFromHostWithMappings storedZlib host cat (ascii "/l/x") pathMax = .ok (ascii "sda2:l/x") ∧
       (resolvePath storedZlib host pathMax 2 ⟨⟨rootPath, [none]⟩, cat⟩
         (ascii "sda2:l/x")).map Prod.fst = some (.error .enoent)) ∧
    (let cat := discoverMounts oneDisk ⟨[blockDevice (ascii "sda2") [] (ascii "/run/v") 1], true⟩
     nameFromHostWithMappings storedZlib oneDisk cat (ascii "/run/v/x") pathMax =
         .ok (ascii "sda2:x") ∧
       (resolvePath storedZlib oneDisk pathMax 2 ⟨⟨rootPath, [none]⟩, cat⟩
         (ascii "sda2:x")).map Prod.fst = some (.ok (ascii "/x"))) := by
  refine ⟨⟨?_, ?_⟩, ⟨?_, ?_⟩, ⟨?_, ?_⟩⟩ <;> decide +kernel

end AceShell
