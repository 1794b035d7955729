import AceShell.Privilege.Crm

/-!
# Containment of the device view

What a request in the view's domain touches. Only the parent directory is resolved by `openat2`,
which does not leave the view; the last component is handed to a system call with symlink rules of
its own. All of these act on the entry itself, except `fchmodat` and `utimensat`, which follow a
link wherever it leads (`protection_changed_outside`). `crm_contained_iff` says that this is the
only way out.
-/

namespace AceShell

open Text Relation

/-! ## File systems -/

structure FileTree where
  entry : ℕ → Name → Option ℕ
  symlink : ℕ → Option Name

namespace FileTree

variable {tree tree' : FileTree} {root directory object : ℕ} {name : Name}

def Holds (tree : FileTree) (directory object : ℕ) : Prop :=
  ∃ name, tree.entry directory name = some object

def Beneath (tree : FileTree) (root object : ℕ) : Prop := ReflTransGen tree.Holds root object

theorem Beneath.entry (h : tree.Beneath root directory)
    (hent : tree.entry directory name = some object) : tree.Beneath root object :=
  h.tail ⟨name, hent⟩

def Grows (tree tree' : FileTree) : Prop :=
  ∀ directory name object, tree.entry directory name = some object →
    tree'.entry directory name = some object

theorem Beneath.grows (h : tree.Beneath root object) (hgrows : tree.Grows tree') :
    tree'.Beneath root object := by
  induction h with
  | refl => exact .refl
  | tail _ hholds ih =>
    obtain ⟨name, hent⟩ := hholds
    exact ih.entry (hgrows _ _ _ hent)

end FileTree

/-- File systems and where an ordinary resolution of a link's contents leads, from the directory of
the link. -/
structure Naming (σ : Type) where
  tree : σ → FileTree
  follow : σ → ℕ → Name → Option ℕ

section Objects

variable {σ : Type} (names : Naming σ)

/-- The object that a call acts on which follows a link in the last component. -/
def Naming.followed (s : σ) (directory : ℕ) (name : Name) : Option ℕ :=
  match (names.tree s).entry directory name with
  | none => none
  | some object =>
    match (names.tree s).symlink object with
    | none => some object
    | some target => names.follow s directory target

/-- The objects that a call opened, made, removed, renamed or linked, or whose mode or times it
changed: the entry itself, except for the two calls that follow a link. -/
def Call.objects (s s' : σ) : Call → Set ℕ
  | .opened object => {object}
  | .unlinked directory name => {object | (names.tree s).entry directory name = some object}
  | .madeDirectory directory name | .madeSymlink directory name =>
    {object | (names.tree s').entry directory name = some object}
  | .changedMode directory name | .changedTimes directory name =>
    {object | names.followed s directory name = some object}
  | .renamed fromDirectory fromName directory name =>
    {object | (names.tree s).entry fromDirectory fromName = some object ∨
      (names.tree s).entry directory name = some object}
  | .linked fromDirectory fromName _ _ =>
    {object | (names.tree s).entry fromDirectory fromName = some object}

/-- All objects that the calls touched were beneath the root when the call was made, or are after
it. -/
def Contained (root : ℕ) (calls : List (Call × σ × σ)) : Prop :=
  ∀ call ∈ calls, ∀ object ∈ call.1.objects names call.2.1 call.2.2,
    (names.tree call.2.1).Beneath root object ∨ (names.tree call.2.2).Beneath root object

/-- What is documented: `openat2` with `RESOLVE_BENEATH` gives an object beneath its start; an
`O_PATH` open and a failed removal change nothing; what makes an entry keeps the others, and a
change of mode or times keeps all. -/
structure Kernel.Documented (kernel : Kernel σ) : Prop where
  openat2_beneath : ∀ {start path how s object s'}, how.scope = .beneath →
    kernel.openat2 start path how s = (.ok object, s') → (names.tree s').Beneath start object
  openat2_path : ∀ {start path how s result s'}, how.access = .path → how.create = false →
    kernel.openat2 start path how s = (result, s') → s' = s
  unlinkat_failed : ∀ {directory name asDirectory s e s'},
    kernel.unlinkat directory name asDirectory s = (some e, s') → s' = s
  mkdirat_grows : ∀ {directory name mode s s'}, kernel.mkdirat directory name mode s = (none, s') →
    (names.tree s).Grows (names.tree s')
  symlinkat_grows : ∀ {target directory name s s'},
    kernel.symlinkat target directory name s = (none, s') → (names.tree s).Grows (names.tree s')
  fchmodat_tree : ∀ {directory name mode s s'}, kernel.fchmodat directory name mode s = (none, s') →
    names.tree s' = names.tree s
  utimensat_tree : ∀ {directory name time s s'},
    kernel.utimensat directory name time s = (none, s') → names.tree s' = names.tree s

def LinkLeavesAt (root : ℕ) (s : σ) (directory : ℕ) (name : Name) : Prop :=
  ∃ link target outside, (names.tree s).entry directory name = some link ∧
    (names.tree s).symlink link = some target ∧
    names.follow s directory target = some outside ∧ ¬ (names.tree s).Beneath root outside

def parentHow : OpenHow := { access := .path, directory := true, scope := .beneath }

/-- The request changes the mode or the times of a name which, in its parent directory, is a link
out of the view. -/
def LeadsOut (kernel : Kernel σ) (root : ℕ) (action : CrmAction) (s : σ) : Prop :=
  ∃ operation path directory name parent, action = .named operation path ∧
    (operation = .setProtection ∨ operation = .setDate) ∧
    splitLast path = some (directory, name) ∧
    (kernel.openat2 root directory parentHow s).1 = .ok parent ∧
    LinkLeavesAt names root s parent name

end Objects

/-! ## Requests in the view -/

variable {call : Call} {relative path name : Name} {how : OpenHow} {object parent : ℕ}
  {action : CrmAction}

section View

variable {σ : Type} {names : Naming σ} {kernel : Kernel σ} {roots : CrmRoots} {root : ℕ}
  {request : PrivilegeRequest} {s s' : σ} {opened : List (Call × σ × σ)}

theorem contained_nil : Contained names root [] := by
  intro call hcall
  simp at hcall

theorem contained_append {calls calls' : List (Call × σ × σ)} :
    Contained names root (calls ++ calls') ↔
      Contained names root calls ∧ Contained names root calls' := by
  unfold Contained
  simp only [List.mem_append, or_imp, forall_and]

theorem contained_singleton :
    Contained names root [(call, s, s')] ↔ ∀ object ∈ call.objects names s s',
      (names.tree s).Beneath root object ∨ (names.tree s').Beneath root object := by
  simp [Contained]

/-- A resolution is `openat2` in the request's domain. A failure is reported, one that the resolve
flags caused as an escape. -/
theorem resolveInDomain_eq {start : ℕ}
    (hstart : (if request.has flagHostPath then roots.host else roots.view) = some start)
    (relative : Name) (how : OpenHow) (s : σ) :
    resolveInDomain kernel roots relative request how s =
      match kernel.openat2 start relative
        { how with
          scope := if request.has flagHostPath then .inRoot else .beneath
          mode := if how.create then how.mode else 0 } s with
      | (.ok object, s) => (.ok object, s)
      | (.error e, s) =>
        (.error ⟨if e = .exdev ∨ e = .eloop then .escaped else .hostError, some e, none⟩, s) := by
  unfold resolveInDomain
  dsimp only
  rw [hstart]
  dsimp only
  generalize kernel.openat2 start relative _ s = result
  obtain ⟨e | object, s'⟩ := result
  · dsimp only
    split_ifs <;> rfl
  · rfl

theorem resolveInDomain_error {reply : CrmReply}
    (h : resolveInDomain kernel roots relative request how s = (.error reply, s')) :
    reply.status ≠ .ok := by
  cases hstart : if request.has flagHostPath then roots.host else roots.view with
  | none =>
    simp only [resolveInDomain, hstart] at h
    cases h
    simp [CrmReply.fail]
  | some start =>
    rw [resolveInDomain_eq hstart] at h
    split at h <;> cases h
    split_ifs <;> simp

theorem resolveInDomain_ok (hview : roots.view = some root)
    (hhost : request.has flagHostPath = false)
    (h : resolveInDomain kernel roots relative request how s = (.ok object, s')) :
    kernel.openat2 root relative
      { how with scope := .beneath, mode := if how.create then how.mode else 0 } s =
      (.ok object, s') := by
  have hstart : (if request.has flagHostPath then roots.host else roots.view) = some root := by
    rw [hhost, if_neg Bool.false_ne_true, hview]
  rw [resolveInDomain_eq hstart, hhost] at h
  split at h
  next hopen =>
    cases h
    exact hopen
  next => cases h

theorem contained_opened (hopened : Contained names root opened)
    (hbeneath : (names.tree s).Beneath root parent) :
    Contained names root (opened ++ [(.opened parent, s, s)]) := by
  rw [contained_append, contained_singleton]
  refine ⟨hopened, ?_⟩
  rintro object rfl
  exact .inl hbeneath

theorem finish_ok {outcome : Option Errno × σ}
    (hok : (finish opened call s outcome).reply.status = .ok) :
    ∃ s', outcome = (none, s') ∧
      (finish opened call s outcome).calls = opened ++ [(call, s, s')] := by
  obtain ⟨e, s'⟩ := outcome
  cases e with
  | none => exact ⟨s', rfl, rfl⟩
  | some e => simp [finish, CrmReply.ofOutcome] at hok

theorem finish_contained_iff {outcome : Option Errno × σ}
    (hok : (finish opened call s outcome).reply.status = .ok)
    (hopened : Contained names root opened) :
    ∃ s', outcome = (none, s') ∧ (Contained names root (finish opened call s outcome).calls ↔
      ∀ object ∈ call.objects names s s',
        (names.tree s).Beneath root object ∨ (names.tree s').Beneath root object) := by
  obtain ⟨s', houtcome, hcalls⟩ := finish_ok hok
  refine ⟨s', houtcome, ?_⟩
  rw [hcalls, contained_append, contained_singleton]
  simp only [hopened, true_and]

theorem followed_beneath_iff (hpar : (names.tree s).Beneath root parent) :
    (∀ object, names.followed s parent name = some object → (names.tree s).Beneath root object) ↔
      ¬ LinkLeavesAt names root s parent name := by
  constructor
  · rintro h ⟨link, target, outside, hent, hlink, hfollow, hout⟩
    refine hout (h outside ?_)
    simp only [Naming.followed, hent, hlink, hfollow]
  intro h object hfollowed
  unfold Naming.followed at hfollowed
  split at hfollowed
  · cases hfollowed
  rename_i entry hent
  split at hfollowed
  · cases hfollowed
    exact hpar.entry hent
  next target hlink =>
    by_contra hout
    exact h ⟨entry, target, object, hent, hlink, hfollowed, hout⟩

theorem performOnName_contained_iff (hker : kernel.Documented names) {operation : NamedOperation}
    (hpar : (names.tree s).Beneath root parent) (hopened : Contained names root opened)
    (hok : (performOnName kernel operation request parent name opened s).reply.status = .ok) :
    Contained names root (performOnName kernel operation request parent name opened s).calls ↔
      ¬ ((operation = .setProtection ∨ operation = .setDate) ∧
        LinkLeavesAt names root s parent name) := by
  cases operation with
  | unlink =>
    -- both attempts are made on the same entry, the second after a failure that changed nothing
    have hremoved : ∀ asDirectory,
        (finish opened (.unlinked parent name) s
          (kernel.unlinkat parent name asDirectory s)).reply.status = .ok →
        Contained names root (finish opened (.unlinked parent name) s
          (kernel.unlinkat parent name asDirectory s)).calls := by
      intro asDirectory hok
      obtain ⟨s', -, hiff⟩ := finish_contained_iff hok hopened
      refine hiff.mpr fun object hobject => .inl (hpar.entry hobject)
    simp only [reduceCtorEq, or_self, false_and, not_false_iff, iff_true]
    unfold performOnName at hok ⊢
    dsimp only at hok ⊢
    split at hok
    next s₁ hfst =>
      obtain rfl := hker.unlinkat_failed hfst
      exact hremoved true hok
    next s₁ hfst =>
      obtain rfl := hker.unlinkat_failed hfst
      exact hremoved true hok
    next => exact hremoved false hok
  | mkdir =>
    obtain ⟨s', houtcome, hiff⟩ := finish_contained_iff hok hopened
    have hgrows := hker.mkdirat_grows houtcome
    simp only [reduceCtorEq, or_self, false_and, not_false_iff, iff_true]
    refine hiff.mpr fun object hobject => .inr ?_
    exact (hpar.grows hgrows).entry hobject
  | setProtection =>
    obtain ⟨s', houtcome, hiff⟩ := finish_contained_iff hok hopened
    have htree := hker.fchmodat_tree houtcome
    simp only [true_or, true_and]
    rw [← followed_beneath_iff hpar]
    refine hiff.trans ?_
    simp only [Call.objects, Set.mem_ofPred_eq, htree, or_self]
  | setDate =>
  obtain ⟨s', houtcome, hiff⟩ := finish_contained_iff hok hopened
  have htree := hker.utimensat_tree houtcome
  simp only [or_true, true_and]
  rw [← followed_beneath_iff hpar]
  refine hiff.trans ?_
  simp only [Call.objects, Set.mem_ofPred_eq, htree, or_self]

theorem not_leadsOut (h : ∀ operation path, action ≠ .named operation path) :
    ¬ LeadsOut names kernel root action s := by
  rintro ⟨operation, path, -, -, -, rfl, -⟩
  exact h operation path rfl

section Parents

variable (hker : kernel.Documented names) (hview : roots.view = some root)
  (hhost : request.has flagHostPath = false)

include hker hview hhost

theorem openParent_ok
    (h : openParent kernel roots path request s = (.ok (parent, name), s')) :
    s' = s ∧ (names.tree s).Beneath root parent ∧ ∃ directory,
      splitLast path = some (directory, name) ∧
      (kernel.openat2 root directory parentHow s).1 = .ok parent := by
  unfold openParent at h
  split at h
  · cases h
  rename_i directory last hsplit
  split at h
  · cases h
  rename_i opened s₁ hres
  cases h
  have hopen := resolveInDomain_ok hview hhost hres
  have hsame : s' = s := hker.openat2_path rfl rfl hopen
  subst hsame
  refine ⟨rfl, hker.openat2_beneath rfl hopen, directory, hsplit, ?_⟩
  exact congrArg Prod.fst hopen

theorem withParent_ok
    {next : ℕ → Name → List (Call × σ × σ) → σ → Performed σ}
    (hok : (withParent kernel roots path request opened s next).reply.status = .ok) :
    ∃ directory parent name, splitLast path = some (directory, name) ∧
      (kernel.openat2 root directory parentHow s).1 = .ok parent ∧
      (names.tree s).Beneath root parent ∧
      withParent kernel roots path request opened s next =
        next parent name (opened ++ [(.opened parent, s, s)]) s := by
  unfold withParent at hok ⊢
  split at hok
  next reply s₁ hpar =>
    -- the parent's failure would be the reply
    exfalso
    unfold openParent at hpar
    split at hpar
    · cases hpar
      simp [CrmReply.fail] at hok
    split at hpar
    next hres =>
      cases hpar
      exact resolveInDomain_error hres hok
    next => cases hpar
  next parent name s₁ hpar =>
    obtain ⟨rfl, hbeneath, directory, hsplit, hopen⟩ := openParent_ok hker hview hhost hpar
    exact ⟨directory, parent, name, hsplit, hopen, hbeneath, rfl⟩

theorem performPair_contained {second : Name} {call : ℕ → Name → ℕ → Name → Call}
    {run : ℕ → Name → ℕ → Name → σ → Option Errno × σ}
    (hobjects : ∀ fromParent fromName parent name s',
      ∀ object ∈ (call fromParent fromName parent name).objects names s s',
        (names.tree s).entry fromParent fromName = some object ∨
        (names.tree s).entry parent name = some object)
    (hok : (withParent kernel roots path request [] s fun fromParent fromName opened s =>
      withParent kernel roots second request opened s fun parent name opened s =>
        finish opened (call fromParent fromName parent name) s
          (run fromParent fromName parent name s)).reply.status = .ok) :
    Contained names root (withParent kernel roots path request [] s
      fun fromParent fromName opened s =>
        withParent kernel roots second request opened s fun parent name opened s =>
          finish opened (call fromParent fromName parent name) s
            (run fromParent fromName parent name s)).calls := by
  obtain ⟨-, fromParent, fromName, -, -, hfrom, hfst⟩ := withParent_ok hker hview hhost hok
  rw [hfst] at hok ⊢
  obtain ⟨-, parent, name, -, -, hto, hsnd⟩ := withParent_ok hker hview hhost hok
  rw [hsnd] at hok ⊢
  have hopened := contained_opened (contained_opened contained_nil hfrom) hto
  obtain ⟨s', -, hiff⟩ := finish_contained_iff hok hopened
  refine hiff.mpr fun object hobject => .inl ?_
  obtain hentry | hentry := hobjects _ _ _ _ _ _ hobject
  · exact hfrom.entry hentry
  · exact hto.entry hentry

theorem performAction_contained_iff
    (hok : (performAction kernel roots action request s).reply.status = .ok) :
    Contained names root (performAction kernel roots action request s).calls ↔
      ¬ LeadsOut names kernel root action s := by
  cases action with
  | «open» operation path =>
    refine iff_of_true ?_ (not_leadsOut (by simp))
    simp only [performAction, performOpen] at hok ⊢
    split at hok
    next reply s' hres => exact absurd hok (resolveInDomain_error hres)
    rename_i object s' hres
    rw [contained_singleton]
    rintro _ rfl
    exact .inr (hker.openat2_beneath rfl (resolveInDomain_ok hview hhost hres))
  | named operation path =>
    simp only [performAction] at hok ⊢
    obtain ⟨directory, parent, name, hsplit, hopen, hpar, heq⟩ := withParent_ok hker hview hhost hok
    rw [heq] at hok ⊢
    rw [performOnName_contained_iff hker hpar (contained_opened contained_nil hpar) hok]
    refine not_congr ⟨?_, ?_⟩
    · rintro ⟨hop, hleaves⟩
      exact ⟨operation, path, directory, name, parent, rfl, hop, hsplit, hopen, hleaves⟩
    rintro ⟨_, _, _, _, _, hact, hop, hsplit', hopen', hleaves⟩
    obtain ⟨rfl, rfl⟩ : _ = _ ∧ _ = _ := by simpa using hact
    obtain ⟨rfl, rfl⟩ : _ = _ ∧ _ = _ := by simpa [hsplit] using hsplit'
    obtain rfl : parent = _ := by simpa [hopen] using hopen'
    exact ⟨hop, hleaves⟩
  | rename path second =>
    refine iff_of_true ?_ (not_leadsOut (by simp))
    refine performPair_contained hker hview hhost ?_ hok
    intro _ _ _ _ _ object hobject
    exact hobject
  | link path second =>
    refine iff_of_true ?_ (not_leadsOut (by simp))
    refine performPair_contained hker hview hhost ?_ hok
    intro _ _ _ _ _ object hobject
    exact .inl hobject
  | symlink path target =>
  refine iff_of_true ?_ (not_leadsOut (by simp))
  simp only [performAction] at hok ⊢
  obtain ⟨-, parent, name, -, -, hpar, heq⟩ := withParent_ok hker hview hhost hok
  rw [heq] at hok ⊢
  obtain ⟨s', houtcome, hiff⟩ := finish_contained_iff hok (contained_opened contained_nil hpar)
  refine hiff.mpr fun object hobject => .inr ?_
  exact (hpar.grows (hker.symlinkat_grows houtcome)).entry hobject

end Parents

/-- **Containment.** What a request in the view that is answered with OK has touched is beneath the
view's root, unless the request changes the mode or the times of a link that leads out. -/
theorem crm_contained_iff (hkernel : kernel.Documented names) (hview : roots.view = some root)
    (hhost : request.has flagHostPath = false) (payload : List UInt8)
    (hok : (perform kernel roots request payload s).reply.status = .ok) :
    Contained names root (perform kernel roots request payload s).calls ↔
      ∀ action, decode request payload = .ok action → ¬ LeadsOut names kernel root action s := by
  unfold perform at hok ⊢
  split at hok
  next status hdecode =>
    refine iff_of_true contained_nil ?_
    intro action haction
    simp [hdecode] at haction
  next action hdecode =>
    rw [performAction_contained_iff hkernel hview hhost hok]
    constructor
    · intro h _ haction
      obtain rfl : action = _ := by simpa [hdecode] using haction
      exact h
    · exact fun h => h action hdecode

end View

/-! ## A disk -/

structure Disk where
  entries : List ((ℕ × Name) × ℕ)
  links : List (ℕ × Name) := []
  directories : List ℕ := []
  /-- What absolute names lead to. -/
  outside : List (Name × ℕ) := []
  modes : List (ℕ × UInt32) := []
  times : List (ℕ × ℤ) := []
  next : ℕ
  deriving DecidableEq

namespace Disk

def entry (disk : Disk) (directory : ℕ) (name : Name) : Option ℕ :=
  disk.entries.lookup (directory, name)

def names : Naming Disk where
  tree disk := ⟨disk.entry, fun object => disk.links.lookup object⟩
  follow disk directory target := (disk.outside.lookup target).or (disk.entry directory target)

def enter (disk : Disk) (directory : ℕ) (name : Name) (object : ℕ) : Disk :=
  { disk with entries := ((directory, name), object) :: disk.entries }

def remove (disk : Disk) (directory : ℕ) (name : Name) : Disk :=
  { disk with entries := disk.entries.filter fun entry => entry.1 ≠ (directory, name) }

def kernel : Kernel Disk where
  openat2 start path how disk :=
    if path = dotName then (.ok start, disk)
    else
      match disk.entry start path with
      | some object =>
        if (disk.links.lookup object).isSome then (.error .eloop, disk) else (.ok object, disk)
      | none =>
        if how.create then
          (.ok disk.next, { disk.enter start path disk.next with next := disk.next + 1 })
        else (.error .enoent, disk)
  unlinkat directory name asDirectory disk :=
    match disk.entry directory name with
    | none => (some .enoent, disk)
    | some object =>
      if object ∈ disk.directories ∧ asDirectory = false then (some .eisdir, disk)
      else if object ∉ disk.directories ∧ asDirectory then (some .enotdir, disk)
      else (none, disk.remove directory name)
  mkdirat directory name mode disk :=
    if (disk.entry directory name).isSome then (some .eexist, disk)
    else
      (none, { disk.enter directory name disk.next with
        directories := disk.next :: disk.directories
        modes := (disk.next, mode) :: disk.modes
        next := disk.next + 1 })
  fchmodat directory name mode disk :=
    match names.followed disk directory name with
    | none => (some .enoent, disk)
    | some object => (none, { disk with modes := (object, mode) :: disk.modes })
  utimensat directory name time disk :=
    match names.followed disk directory name with
    | none => (some .enoent, disk)
    | some object => (none, { disk with times := (object, time) :: disk.times })
  renameat fromDirectory fromName directory name disk :=
    match disk.entry fromDirectory fromName with
    | none => (some .enoent, disk)
    | some object =>
      (none, ((disk.remove fromDirectory fromName).remove directory name).enter
        directory name object)
  linkat fromDirectory fromName directory name disk :=
    match disk.entry fromDirectory fromName with
    | none => (some .enoent, disk)
    | some object =>
      if (disk.entry directory name).isSome then (some .eexist, disk)
      else (none, disk.enter directory name object)
  symlinkat target directory name disk :=
    if (disk.entry directory name).isSome then (some .eexist, disk)
    else
      (none, { disk.enter directory name disk.next with
        links := (disk.next, target) :: disk.links
        next := disk.next + 1 })

theorem grows_enter {disk : Disk} {directory : ℕ} (object : ℕ)
    (hnew : ¬ (disk.entry directory name).isSome) {disk' : Disk}
    (hents : disk'.entries = (disk.enter directory name object).entries) :
    (names.tree disk).Grows (names.tree disk') := by
  intro directory' name' object' hent
  change disk.entries.lookup (directory', name') = some object' at hent
  change disk'.entries.lookup (directory', name') = some object'
  have hne : ((directory', name') == (directory, name)) = false := by
    rw [beq_eq_false_iff_ne]
    rintro heq
    rw [heq] at hent
    simp [entry, hent] at hnew
  rw [hents, enter, List.lookup_cons, hne]
  exact hent

theorem kernel_documented : kernel.Documented names where
  openat2_beneath := by
    intro start path how disk object disk' _ h
    unfold kernel at h
    dsimp only at h
    split at h
    · cases h
      exact .refl
    split at h
    next found hent =>
      split_ifs at h <;> cases h
      exact .single ⟨path, hent⟩
    next =>
      split_ifs at h <;> cases h
      refine .single ⟨path, ?_⟩
      simp [names, entry, enter]
  openat2_path := by
    intro start path how disk result disk' _ hcreate h
    unfold kernel at h
    grind
  unlinkat_failed := by
    intro directory name asDirectory disk e disk' h
    unfold kernel at h
    grind
  mkdirat_grows := by
    intro directory name mode disk disk' h
    unfold kernel at h
    dsimp only at h
    split_ifs at h with hnew <;> cases h
    exact grows_enter disk.next hnew rfl
  symlinkat_grows := by
    intro target directory name disk disk' h
    unfold kernel at h
    dsimp only at h
    split_ifs at h with hnew <;> cases h
    exact grows_enter disk.next hnew rfl
  fchmodat_tree := by
    intro directory name mode disk disk' h
    unfold kernel at h
    dsimp only at h
    split at h <;> cases h
    rfl
  utimensat_tree := by
    intro directory name time disk disk' h
    unfold kernel at h
    dsimp only at h
    split at h <;> cases h
    rfl

end Disk

/-! ## A link out of the view -/

def pathRequest (opcode : Opcode) (path : Name) : PrivilegeRequest where
  goodMagic := true
  operation := opcode.code
  flags := 0
  mode := 0o777
  firstPathLength := 0
  payloadLength := path.length + 1
  modificationTime := 0

def viewRoots : CrmRoots := ⟨some 1, some 0⟩

def linkDisk : Disk where
  entries := [((1, ascii "l"), 2)]
  links := [(2, ascii "/etc/shadow")]
  outside := [(ascii "/etc/shadow", 9)]
  next := 10

theorem linkDisk_beneath (h : (Disk.names.tree linkDisk).Beneath 1 object) :
    object = 1 ∨ object = 2 := by
  induction h with
  | refl => exact .inl rfl
  | tail _ hholds _ =>
  obtain ⟨name, hent⟩ := hholds
  change linkDisk.entry _ name = some _ at hent
  simp only [linkDisk, Disk.entry, List.lookup_cons, List.lookup_nil] at hent
  split at hent
  · exact .inr (Option.some.inj hent).symm
  · cases hent

/-- Deleting the link itself stays in the view. -/
theorem crm_contained_iff_unlink :
    (perform Disk.kernel viewRoots (pathRequest .unlink (ascii "l")) (ascii "l" ++ [0])
      linkDisk).reply.status = .ok ∧
    Contained Disk.names 1 (perform Disk.kernel viewRoots (pathRequest .unlink (ascii "l"))
      (ascii "l" ++ [0]) linkDisk).calls := by
  refine ⟨by decide,
    (crm_contained_iff Disk.kernel_documented rfl (by decide) _ (by decide)).mpr ?_⟩
  rintro action haction ⟨operation, path, directory, name, parent, rfl, hoperation, -⟩
  have hdecoded : decode (pathRequest .unlink (ascii "l")) (ascii "l" ++ [0]) =
      .ok (.named .unlink (ascii "l")) := rfl
  rw [hdecoded] at haction
  cases haction
  rcases hoperation with hoperation | hoperation
  · cases hoperation
  · cases hoperation

/-- Changing its protection changes that of the object outside. -/
theorem protection_changed_outside :
    Disk.kernel.Documented Disk.names ∧
    (pathRequest .setProtection (ascii "l")).has flagHostPath = false ∧
    (perform Disk.kernel viewRoots (pathRequest .setProtection (ascii "l")) (ascii "l" ++ [0])
      linkDisk).reply.status = .ok ∧
    ¬ Contained Disk.names 1 (perform Disk.kernel viewRoots
      (pathRequest .setProtection (ascii "l")) (ascii "l" ++ [0]) linkDisk).calls := by
  refine ⟨Disk.kernel_documented, by decide, by decide, ?_⟩
  intro hcontained
  have hcalls : (perform Disk.kernel viewRoots (pathRequest .setProtection (ascii "l"))
      (ascii "l" ++ [0]) linkDisk).calls =
      [(.opened 1, linkDisk, linkDisk)] ++
        [(.changedMode 1 (ascii "l"), linkDisk, { linkDisk with modes := [(9, 0o777)] })] := by
    decide
  have hfollowed : Disk.names.followed linkDisk 1 (ascii "l") = some 9 := by decide
  rw [hcalls, contained_append, contained_singleton, contained_singleton] at hcontained
  -- the protection is no part of the tree, so it is the same tree before and after
  have hbeneath : (Disk.names.tree linkDisk).Beneath 1 9 := (hcontained.2 9 hfollowed).elim id id
  have := linkDisk_beneath hbeneath
  omega

end AceShell
