import KfkClient.Engine.Version

/-!
# Applying an edit to a version (`VersionSet::Builder`)

An edit names files to delete and files to add. The builder merges the added files of each
level into those of the base version and leaves the deleted ones out. In a level other than
0 an assertion fails when two neighbours overlap.

## Main results

- `build_spec` — when the files that stay share no user key, no assertion fails, and the
  levels of the result hold the files of the base that are not deleted, and the added ones
-/

namespace KfkClient.Engine

open MultiVersion Lists
open scoped List

variable {K V : Type} [LinearOrder K]

/-- The parts of a `VersionEdit` that decide the files of a version. -/
structure VersionEdit (K V : Type) [LinearOrder K] where
  deletedFiles : List (ℕ × ℕ)
  newFiles : List (ℕ × FileMetaData K V)

/-- `BySmallestKey` -/
def bySmallestKey (f g : FileMetaData K V) : Bool :=
  if f.smallest ≠ g.smallest then decide (f.smallest < g.smallest) else decide (f.number < g.number)

structure LevelState (K V : Type) [LinearOrder K] where
  deletedFiles : List ℕ
  addedFiles : List (FileMetaData K V)

/-- Insertion into a `std::set` ordered by `bySmallestKey`: nothing happens when it has an
equivalent element. -/
def insertFile (f : FileMetaData K V) : List (FileMetaData K V) → List (FileMetaData K V)
  | [] => [f]
  | g :: files =>
    if bySmallestKey f g then f :: g :: files
    else if bySmallestKey g f then g :: insertFile f files
    else g :: files

abbrev Builder (K V : Type) [LinearOrder K] := ℕ → LevelState K V

def Builder.empty : Builder K V := fun _ => ⟨[], []⟩

def Builder.deleteFile (b : Builder K V) (d : ℕ × ℕ) : Builder K V :=
  Function.update b d.1 { b d.1 with deletedFiles := d.2 :: (b d.1).deletedFiles }

def Builder.addFile (b : Builder K V) (n : ℕ × FileMetaData K V) : Builder K V :=
  Function.update b n.1
    { deletedFiles := (b n.1).deletedFiles.filter (· ≠ n.2.number)
      addedFiles := insertFile n.2 (b n.1).addedFiles }

/-- `Apply`; the compaction pointer that it sets was set when the compaction was picked. -/
def Builder.apply (b : Builder K V) (edit : VersionEdit K V) : Builder K V :=
  edit.newFiles.foldl addFile (edit.deletedFiles.foldl deleteFile b)

/-- `MaybeAddFile`; the assertion gives `none`. -/
def maybeAddFile (level : ℕ) (deleted : List ℕ) (files : List (FileMetaData K V))
    (f : FileMetaData K V) : Option (List (FileMetaData K V)) :=
  if f.number ∈ deleted then some files
  else
    match files.getLast? with
    | some last =>
      if 0 < level ∧ ¬ last.largest < f.smallest then none else some (files ++ [f])
    | none => some (files ++ [f])

/-- The loop of `SaveTo` over the added files of a level. The base files up to
`std::upper_bound` come before each of them. -/
def saveLevelLoop (level : ℕ) (deleted : List ℕ) :
    List (FileMetaData K V) → List (FileMetaData K V) → List (FileMetaData K V) →
      Option (List (FileMetaData K V))
  | [], base, files => base.foldlM (maybeAddFile level deleted) files
  | a :: added, base, files => do
    let smaller := base.takeWhile fun f => !bySmallestKey a f
    let files ← smaller.foldlM (maybeAddFile level deleted) files
    let files ← maybeAddFile level deleted files a
    saveLevelLoop level deleted added (base.dropWhile fun f => !bySmallestKey a f) files

/-- The check after the loop, which aborts. -/
def noOverlap : List (FileMetaData K V) → Bool
  | f :: g :: files => decide (f.largest < g.smallest) && noOverlap (g :: files)
  | _ => true

def saveLevel (level : ℕ) (state : LevelState K V) (base : List (FileMetaData K V)) :
    Option (List (FileMetaData K V)) := do
  let files ← saveLevelLoop level state.deletedFiles state.addedFiles base []
  if 0 < level ∧ noOverlap files = false then none else some files

def Builder.saveTo (b : Builder K V) (base : Version K V) : Option (Version K V) := do
  let files ← (List.range kNumLevels).mapM fun level => saveLevel level (b level) (base level)
  some fun level => (files[level]?).getD []

/-- The version that `LogAndApply` makes of the current one. -/
def build (base : Version K V) (edit : VersionEdit K V) : Option (Version K V) :=
  (Builder.empty.apply edit).saveTo base

/-! ## The merge of a level -/

/-- The files in the order in which `SaveTo` comes to them. -/
def mergeFiles : List (FileMetaData K V) → List (FileMetaData K V) → List (FileMetaData K V)
  | [], base => base
  | a :: added, base =>
    (base.takeWhile fun f => !bySmallestKey a f) ++
      a :: mergeFiles added (base.dropWhile fun f => !bySmallestKey a f)

theorem saveLevelLoop_eq (level : ℕ) (deleted : List ℕ)
    (added base files : List (FileMetaData K V)) :
    saveLevelLoop level deleted added base files =
      (mergeFiles added base).foldlM (maybeAddFile level deleted) files := by
  induction added generalizing base files with
  | nil => rfl
  | cons a added ih =>
    simp only [saveLevelLoop, mergeFiles, List.foldlM_append, List.foldlM_cons, ih]

theorem mergeFiles_perm (added base : List (FileMetaData K V)) :
    mergeFiles added base ~ added ++ base := by
  induction added generalizing base with
  | nil => exact List.Perm.refl _
  | cons a added ih =>
    rw [mergeFiles]
    set front := base.takeWhile fun f => !bySmallestKey a f
    set back := base.dropWhile fun f => !bySmallestKey a f
    have hbase : front ++ back = base := List.takeWhile_append_dropWhile
    calc front ++ a :: mergeFiles added back
      _ ~ front ++ a :: (added ++ back) := ((ih back).cons a).append_left front
      _ ~ a :: (front ++ (added ++ back)) := List.perm_middle
      _ ~ a :: (added ++ (front ++ back)) := by
        rw [← List.append_assoc, ← List.append_assoc]
        exact (List.perm_append_comm.append_right back).cons a
      _ = a :: added ++ base := by rw [hbase, List.cons_append]

theorem smallest_le_of_bySmallestKey {f g : FileMetaData K V} (h : bySmallestKey f g = true) :
    f.smallest ≤ g.smallest := by
  rw [bySmallestKey] at h
  split at h
  · exact (of_decide_eq_true h).le
  · rename_i heq
    exact (not_not.mp heq).le

theorem smallest_le_of_not_bySmallestKey {f g : FileMetaData K V}
    (h : bySmallestKey f g = false) : g.smallest ≤ f.smallest := by
  rw [bySmallestKey] at h
  split at h
  · exact not_lt.mp (of_decide_eq_false h)
  · rename_i heq
    exact (not_not.mp heq).ge

/-- Files in the order of their first keys. -/
def Ordered (files : List (FileMetaData K V)) : Prop :=
  files.Pairwise fun f g => f.smallest ≤ g.smallest

theorem Apart.ordered {files : List (FileMetaData K V)} (h : Apart files) : Ordered files := by
  refine List.Pairwise.imp ?_ h
  intro f g hfg
  exact (InternalKey.lt_iff.mpr (.inl (f.range_le.trans_lt hfg))).le

theorem dropWhile_smallest {a : FileMetaData K V} {base : List (FileMetaData K V)}
    (hbase : Ordered base) {f : FileMetaData K V}
    (hf : f ∈ base.dropWhile fun f => !bySmallestKey a f) : a.smallest ≤ f.smallest := by
  induction base with
  | nil => exact absurd hf List.not_mem_nil
  | cons g base ih =>
    obtain ⟨hfirst, hrest⟩ := List.pairwise_cons.mp hbase
    rw [List.dropWhile_cons] at hf
    split at hf
    · exact ih hrest hf
    · rename_i hkey
      have hag : a.smallest ≤ g.smallest := smallest_le_of_bySmallestKey (by simpa using hkey)
      rcases List.mem_cons.mp hf with rfl | hf
      · exact hag
      · exact hag.trans (hfirst f hf)

theorem mergeFiles_ordered {added base : List (FileMetaData K V)} (hadded : Ordered added)
    (hbase : Ordered base) : Ordered (mergeFiles added base) := by
  induction added generalizing base with
  | nil => exact hbase
  | cons a added ih =>
    obtain ⟨hfirst, hrest⟩ := List.pairwise_cons.mp hadded
    rw [mergeFiles]
    set front := base.takeWhile fun f => !bySmallestKey a f with hfront
    set back := base.dropWhile fun f => !bySmallestKey a f with hback
    have hsplit : front ++ back = base := List.takeWhile_append_dropWhile
    rw [← hsplit] at hbase
    obtain ⟨hordf, hordb, hcross⟩ := List.pairwise_append.mp hbase
    have hfa : ∀ f ∈ front, f.smallest ≤ a.smallest := by
      intro f hf
      have hkey := List.mem_takeWhile_imp hf
      exact smallest_le_of_not_bySmallestKey (by simpa using hkey)
    have hrestmem : ∀ g ∈ mergeFiles added back, g ∈ added ∨ g ∈ back := fun g hg =>
      List.mem_append.mp ((mergeFiles_perm added back).mem_iff.mp hg)
    have hag : ∀ g ∈ mergeFiles added back, a.smallest ≤ g.smallest := by
      intro g hg
      rcases hrestmem g hg with hg | hg
      · exact hfirst g hg
      · exact dropWhile_smallest (hsplit ▸ hbase) hg
    refine List.pairwise_append.mpr ⟨hordf, List.pairwise_cons.mpr ⟨hag, ih hrest hordb⟩, ?_⟩
    intro f hf g hg
    rcases List.mem_cons.mp hg with rfl | hg
    · exact hfa f hf
    · exact (hfa f hf).trans (hag g hg)

/-- No user key is in the ranges of both files. -/
def Separate (f g : FileMetaData K V) : Prop :=
  f.largest.userKey < g.smallest.userKey ∨ g.largest.userKey < f.smallest.userKey

theorem Separate.symm {f g : FileMetaData K V} (h : Separate f g) : Separate g f := Or.symm h

theorem Ordered.apart {files : List (FileMetaData K V)} (h : Ordered files) (hnodup : files.Nodup)
    (hsep : ∀ f ∈ files, ∀ g ∈ files, f ≠ g → Separate f g) : Apart files := by
  refine (List.Pairwise.and h hnodup).imp_of_mem ?_
  intro f g hf hg hfg
  rcases hsep f hf g hg hfg.2 with hlt | hlt
  · exact hlt
  · have hle := InternalKey.userKey_le_of_le hfg.1
    exact absurd hlt (hle.trans g.range_le).not_gt

theorem Apart.nodup {files : List (FileMetaData K V)} (h : Apart files) : files.Nodup := by
  refine List.Pairwise.imp ?_ h
  rintro f g hfg rfl
  exact absurd hfg f.range_le.not_gt

theorem Apart.separate {files : List (FileMetaData K V)} (h : Apart files)
    {f g : FileMetaData K V} (hf : f ∈ files) (hg : g ∈ files) (hne : f ≠ g) : Separate f g := by
  have hsep : files.Pairwise Separate := List.Pairwise.imp .inl h
  have : Std.Symm (Separate : FileMetaData K V → FileMetaData K V → Prop) :=
    ⟨fun _ _ hfg => hfg.symm⟩
  exact hsep.forall hf hg hne

/-! ## What is saved -/

theorem foldlM_maybeAddFile {level : ℕ} {deleted : List ℕ} {fs files : List (FileMetaData K V)}
    (h : 0 < level → Apart (files ++ fs.filter fun f => decide (f.number ∉ deleted))) :
    fs.foldlM (maybeAddFile level deleted) files =
      some (files ++ fs.filter fun f => decide (f.number ∉ deleted)) := by
  induction fs generalizing files with
  | nil => simp
  | cons f fs ih =>
    rw [List.foldlM_cons]
    by_cases hdel : f.number ∈ deleted
    · have hfilter : (f :: fs).filter (fun f => decide (f.number ∉ deleted)) =
          fs.filter fun f => decide (f.number ∉ deleted) :=
        List.filter_cons_of_neg (by simpa using hdel)
      rw [hfilter] at h ⊢
      rw [maybeAddFile, if_pos hdel]
      exact ih h
    · have hfilter : (f :: fs).filter (fun f => decide (f.number ∉ deleted)) =
          f :: fs.filter fun f => decide (f.number ∉ deleted) :=
        List.filter_cons_of_pos (by simpa using hdel)
      rw [hfilter] at h ⊢
      have hstep : maybeAddFile level deleted files f = some (files ++ [f]) := by
        rw [maybeAddFile, if_neg hdel]
        cases hlast : files.getLast? with
        | none => rfl
        | some last =>
          dsimp only
          rw [if_neg]
          rintro ⟨hlevel, hover⟩
          have hlt := (List.pairwise_append.mp (h hlevel)).2.2 last (List.mem_of_getLast? hlast) f
            List.mem_cons_self
          exact hover (InternalKey.lt_iff.mpr (.inl hlt))
      have happ : files ++ f :: fs.filter (fun f => decide (f.number ∉ deleted)) =
          files ++ [f] ++ fs.filter fun f => decide (f.number ∉ deleted) := by
        rw [List.append_assoc, List.singleton_append]
      rw [happ] at h ⊢
      rw [hstep]
      exact ih h

theorem noOverlap_iff {files : List (FileMetaData K V)} :
    noOverlap files = true ↔ Consecutive files := by
  induction files with
  | nil => exact iff_of_true rfl .nil
  | cons f files ih =>
    cases files with
    | nil => exact iff_of_true rfl (List.pairwise_singleton _ _)
    | cons g files =>
      rw [noOverlap, Bool.and_eq_true, decide_eq_true_eq, ih]
      constructor
      · rintro ⟨hlt, hrest⟩
        refine List.pairwise_cons.mpr ⟨fun x hx => ?_, hrest⟩
        rcases List.mem_cons.mp hx with rfl | hx
        · exact hlt
        · have hafter := (List.pairwise_cons.mp hrest).1 x hx
          exact hlt.trans_le (g.smallest_le_largest.trans hafter.le)
      · intro h
        obtain ⟨hfirst, hrest⟩ := List.pairwise_cons.mp h
        exact ⟨hfirst g List.mem_cons_self, hrest⟩

theorem saveLevel_spec {level : ℕ} {state : LevelState K V} {base : List (FileMetaData K V)}
    (hbase : 0 < level → Ordered base) (hadded : Ordered state.addedFiles)
    (hnodup : (state.addedFiles ++ base).Nodup)
    (hsep : 0 < level → ∀ f ∈ state.addedFiles ++ base, ∀ g ∈ state.addedFiles ++ base,
      f.number ∉ state.deletedFiles → g.number ∉ state.deletedFiles → f ≠ g → Separate f g) :
    ∃ files, saveLevel level state base = some files ∧
      files ~ (state.addedFiles ++ base).filter (fun f => decide (f.number ∉ state.deletedFiles)) ∧
      (0 < level → Apart files) := by
  set files := (mergeFiles state.addedFiles base).filter
    fun f => decide (f.number ∉ state.deletedFiles) with hfiles
  have hperm := mergeFiles_perm state.addedFiles base
  have hapart : 0 < level → Apart files := by
    intro hlevel
    have hord := (mergeFiles_ordered hadded (hbase hlevel)).sublist
      (List.filter_sublist (p := fun f => decide (f.number ∉ state.deletedFiles)))
    refine Ordered.apart hord ((hperm.nodup_iff.mpr hnodup).filter _) ?_
    intro f hf g hg hne
    have hf' := List.mem_filter.mp hf
    have hg' := List.mem_filter.mp hg
    exact hsep hlevel f (hperm.mem_iff.mp hf'.1) g (hperm.mem_iff.mp hg'.1)
      (of_decide_eq_true hf'.2) (of_decide_eq_true hg'.2) hne
  refine ⟨files, ?_, hperm.filter _, hapart⟩
  have hloop : saveLevelLoop level state.deletedFiles state.addedFiles base [] = some files := by
    rw [saveLevelLoop_eq, foldlM_maybeAddFile (by rwa [List.nil_append]), List.nil_append]
  rw [saveLevel, hloop]
  show (if 0 < level ∧ noOverlap files = false then none else some files) = some files
  rw [if_neg]
  rintro ⟨hlevel, hover⟩
  rw [noOverlap_iff.mpr (hapart hlevel).consecutive] at hover
  cases hover

/-! ## The edit, level by level -/

theorem insertFile_perm {f : FileMetaData K V} {files : List (FileMetaData K V)}
    (h : ∀ g ∈ files, g.number ≠ f.number) : insertFile f files ~ f :: files := by
  induction files with
  | nil => exact List.Perm.refl _
  | cons g files ih =>
    rw [insertFile]
    by_cases hfg : bySmallestKey f g = true
    · rw [if_pos hfg]
    · rw [if_neg hfg]
      by_cases hgf : bySmallestKey g f = true
      · rw [if_pos hgf]
        have hrest := ih fun x hx => h x (List.mem_cons_of_mem _ hx)
        exact (hrest.cons g).trans (List.Perm.swap f g files)
      · -- neither comes first only when the numbers are equal
        exfalso
        rw [Bool.not_eq_true] at hfg hgf
        have heq := le_antisymm (smallest_le_of_not_bySmallestKey hgf)
          (smallest_le_of_not_bySmallestKey hfg)
        have hne := h g List.mem_cons_self
        simp only [bySmallestKey, heq, ne_eq, not_true_eq_false, if_false,
          decide_eq_false_iff_not, not_lt] at hfg hgf
        omega

theorem mem_of_mem_insertFile {f x : FileMetaData K V} {files : List (FileMetaData K V)}
    (hx : x ∈ insertFile f files) : x = f ∨ x ∈ files := by
  induction files with
  | nil => exact .inl (List.mem_singleton.mp hx)
  | cons g files ih =>
    rw [insertFile] at hx
    split at hx
    · exact List.mem_cons.mp hx
    · split at hx
      · rcases List.mem_cons.mp hx with rfl | hx
        · exact .inr List.mem_cons_self
        · exact (ih hx).imp id (List.mem_cons_of_mem _)
      · exact .inr hx

theorem insertFile_ordered {f : FileMetaData K V} {files : List (FileMetaData K V)}
    (h : Ordered files) : Ordered (insertFile f files) := by
  induction files with
  | nil => exact List.pairwise_singleton _ f
  | cons g files ih =>
    obtain ⟨hfirst, hrest⟩ := List.pairwise_cons.mp h
    rw [insertFile]
    split
    · rename_i hfg
      have hle := smallest_le_of_bySmallestKey hfg
      refine List.pairwise_cons.mpr ⟨fun x hx => ?_, h⟩
      rcases List.mem_cons.mp hx with rfl | hx
      · exact hle
      · exact hle.trans (hfirst x hx)
    · split
      · rename_i hgf
        refine List.pairwise_cons.mpr ⟨fun x hx => ?_, ih hrest⟩
        rcases mem_of_mem_insertFile hx with rfl | hx
        · exact smallest_le_of_bySmallestKey hgf
        · exact hfirst x hx
      · exact h

theorem mem_deletedFiles_deleteFile (ds : List (ℕ × ℕ)) (b : Builder K V) (level n : ℕ) :
    n ∈ (ds.foldl Builder.deleteFile b level).deletedFiles ↔
      (level, n) ∈ ds ∨ n ∈ (b level).deletedFiles := by
  induction ds generalizing b with
  | nil => simp
  | cons d ds ih =>
    rw [List.foldl_cons, ih, List.mem_cons]
    obtain ⟨l, m⟩ := d
    by_cases hl : level = l
    · subst hl
      simp only [Builder.deleteFile, Function.update_self, List.mem_cons, Prod.mk.injEq, true_and]
      tauto
    · simp only [Builder.deleteFile, Function.update_of_ne hl, Prod.mk.injEq, hl, false_and,
        false_or]

theorem addedFiles_deleteFile (ds : List (ℕ × ℕ)) (b : Builder K V) (level : ℕ) :
    (ds.foldl Builder.deleteFile b level).addedFiles = (b level).addedFiles := by
  induction ds generalizing b with
  | nil => rfl
  | cons d ds ih =>
    rw [List.foldl_cons, ih, Builder.deleteFile]
    by_cases hl : level = d.1
    · rw [hl, Function.update_self]
    · rw [Function.update_of_ne hl]

theorem mem_deletedFiles_addFile (ns : List (ℕ × FileMetaData K V)) (b : Builder K V)
    (level n : ℕ) :
    n ∈ (ns.foldl Builder.addFile b level).deletedFiles ↔
      n ∈ (b level).deletedFiles ∧ ∀ f, (level, f) ∈ ns → f.number ≠ n := by
  induction ns generalizing b with
  | nil => simp
  | cons p ns ih =>
    rw [List.foldl_cons, ih]
    obtain ⟨l, g⟩ := p
    by_cases hl : level = l
    · subst hl
      simp only [Builder.addFile, Function.update_self, List.mem_filter, decide_eq_true_eq,
        List.mem_cons, Prod.mk.injEq, true_and]
      constructor
      · rintro ⟨⟨hmem, hne⟩, hrest⟩
        refine ⟨hmem, ?_⟩
        rintro f (rfl | hf)
        · exact fun h => hne h.symm
        · exact hrest f hf
      · rintro ⟨hmem, hall⟩
        exact ⟨⟨hmem, fun h => hall g (.inl rfl) h.symm⟩, fun f hf => hall f (.inr hf)⟩
    · simp only [Builder.addFile, Function.update_of_ne hl, List.mem_cons, Prod.mk.injEq, hl,
        false_and, false_or]

theorem addedFiles_addFile (ns : List (ℕ × FileMetaData K V)) {b : Builder K V} {level : ℕ}
    (hord : Ordered (b level).addedFiles)
    (hns : ns.Pairwise fun p q => p.2.number ≠ q.2.number)
    (hb : ∀ p ∈ ns, ∀ g ∈ (b level).addedFiles, g.number ≠ p.2.number) :
    Ordered (ns.foldl Builder.addFile b level).addedFiles ∧
      (ns.foldl Builder.addFile b level).addedFiles ~
        (b level).addedFiles ++ (ns.filter fun p => p.1 = level).map Prod.snd := by
  induction ns generalizing b with
  | nil => exact ⟨hord, by simp⟩
  | cons p ns ih =>
    obtain ⟨l, g⟩ := p
    obtain ⟨hfirst, hrest⟩ := List.pairwise_cons.mp hns
    rw [List.foldl_cons]
    have hb' : ∀ q ∈ ns, ∀ g' ∈ (b level).addedFiles, g'.number ≠ q.2.number := fun q hq =>
      hb q (List.mem_cons_of_mem _ hq)
    by_cases hl : level = l
    · subst hl
      have hadd : (b.addFile (level, g) level).addedFiles = insertFile g (b level).addedFiles := by
        simp only [Builder.addFile, Function.update_self]
      have hnew : ∀ g' ∈ (b level).addedFiles, g'.number ≠ g.number :=
        hb (level, g) List.mem_cons_self
      have hperm := insertFile_perm hnew
      obtain ⟨hord', hperm'⟩ := ih (b := b.addFile (level, g))
        (by rw [hadd]; exact insertFile_ordered hord) hrest (by
          intro q hq g' hg'
          rw [hadd] at hg'
          rcases mem_of_mem_insertFile hg' with rfl | hg'
          · exact hfirst q hq
          · exact hb' q hq g' hg')
      refine ⟨hord', hperm'.trans ?_⟩
      rw [hadd, List.filter_cons_of_pos (by simp), List.map_cons]
      exact (hperm.append_right _).trans List.perm_middle.symm
    · have hadd : (b.addFile (l, g) level) = b level := by
        simp only [Builder.addFile, Function.update_of_ne hl]
      obtain ⟨hord', hperm'⟩ := ih (b := b.addFile (l, g)) (by rwa [hadd]) hrest (by rwa [hadd])
      refine ⟨hord', hperm'.trans ?_⟩
      rw [hadd, List.filter_cons_of_neg (by simpa using fun h => hl h.symm)]

theorem Builder.apply_addedFiles {edit : VersionEdit K V}
    (hnew : edit.newFiles.Pairwise fun p q => p.2.number ≠ q.2.number) (level : ℕ) :
    Ordered (Builder.empty.apply edit level).addedFiles ∧
      (Builder.empty.apply edit level).addedFiles ~
        (edit.newFiles.filter fun p => p.1 = level).map Prod.snd := by
  have hempty : (edit.deletedFiles.foldl Builder.deleteFile Builder.empty level).addedFiles =
      ([] : List (FileMetaData K V)) := addedFiles_deleteFile _ _ _
  have h := addedFiles_addFile edit.newFiles
    (b := edit.deletedFiles.foldl Builder.deleteFile Builder.empty)
    (by rw [hempty]; exact List.Pairwise.nil) hnew (by rw [hempty]; simp)
  rwa [hempty, List.nil_append] at h

theorem Builder.apply_deletedFiles (edit : VersionEdit K V) (level n : ℕ) :
    n ∈ (Builder.empty.apply edit level).deletedFiles ↔
      (level, n) ∈ edit.deletedFiles ∧ ∀ f, (level, f) ∈ edit.newFiles → f.number ≠ n := by
  rw [Builder.apply, mem_deletedFiles_addFile, mem_deletedFiles_deleteFile]
  simp [Builder.empty]

/-- The file is in the level after the edit. -/
def Stays (base : Version K V) (edit : VersionEdit K V) (level : ℕ) (f : FileMetaData K V) : Prop :=
  f ∈ base level ∧ (level, f.number) ∉ edit.deletedFiles ∨ (level, f) ∈ edit.newFiles

section Build

variable {base : Version K V} {edit : VersionEdit K V}
  (hnew : edit.newFiles.Pairwise fun p q => p.2.number ≠ q.2.number)
  (hfresh : ∀ level f, (level, f) ∈ edit.newFiles → ∀ g ∈ base level, g.number ≠ f.number)
include hnew

theorem mem_addedFiles (level : ℕ) (f : FileMetaData K V) :
    f ∈ (Builder.empty.apply edit level).addedFiles ↔ (level, f) ∈ edit.newFiles := by
  rw [(Builder.apply_addedFiles hnew level).2.mem_iff]
  simp

theorem nodup_addedFiles (level : ℕ) : (Builder.empty.apply edit level).addedFiles.Nodup := by
  rw [(Builder.apply_addedFiles hnew level).2.nodup_iff]
  refine (List.pairwise_map.mpr ((hnew.filter _).imp ?_))
  intro p q hpq heq
  exact hpq (congrArg FileMetaData.number heq)

include hfresh

theorem stays_iff (level : ℕ) (f : FileMetaData K V) :
    Stays base edit level f ↔ f ∈ (Builder.empty.apply edit level).addedFiles ++ base level ∧
      f.number ∉ (Builder.empty.apply edit level).deletedFiles := by
  rw [List.mem_append, mem_addedFiles hnew, Builder.apply_deletedFiles, Stays]
  constructor
  · rintro (⟨hf, hdel⟩ | hf)
    · exact ⟨.inr hf, fun h => hdel h.1⟩
    · exact ⟨.inl hf, fun h => h.2 f hf rfl⟩
  · rintro ⟨hf | hf, hdel⟩
    · exact .inr hf
    · refine .inl ⟨hf, fun h => hdel ⟨h, ?_⟩⟩
      intro g hg heq
      exact hfresh level g hg f hf heq.symm

/-- The builder saves the files that stay. -/
theorem build_spec (hapart : ∀ level, 0 < level → Apart (base level)) (hnodup : (base 0).Nodup)
    (hsep : ∀ level, 0 < level → ∀ f g, Stays base edit level f → Stays base edit level g →
      f ≠ g → Separate f g) :
    ∃ v, build base edit = some v ∧
      (∀ level < kNumLevels, ∀ f, f ∈ v level ↔ Stays base edit level f) ∧
      (∀ level, kNumLevels ≤ level → v level = []) ∧
      (∀ level, 0 < level → Apart (v level)) ∧ (v 0).Nodup := by
  set b : Builder K V := Builder.empty.apply edit
  have hlevel : ∀ level, ∃ files, saveLevel level (b level) (base level) = some files ∧
      files ~ ((b level).addedFiles ++ base level).filter
        (fun f => decide (f.number ∉ (b level).deletedFiles)) ∧
      (0 < level → Apart files) := by
    intro level
    have hnodupl : (base level).Nodup := by
      rcases Nat.eq_zero_or_pos level with rfl | hpos
      · exact hnodup
      · exact (hapart level hpos).nodup
    refine saveLevel_spec (fun hpos => (hapart level hpos).ordered)
      (Builder.apply_addedFiles hnew level).1 ?_ ?_
    · refine (nodup_addedFiles hnew level).append hnodupl ?_
      intro f hf hf'
      exact hfresh level f ((mem_addedFiles hnew level f).mp hf) f hf' rfl
    · intro hpos f hf g hg hdf hdg hne
      exact hsep level hpos f g ((stays_iff hnew hfresh level f).mpr ⟨hf, hdf⟩)
        ((stays_iff hnew hfresh level g).mpr ⟨hg, hdg⟩) hne
  choose files hsave hperm hap using hlevel
  have hall : (List.range kNumLevels).mapM (fun level => saveLevel level (b level) (base level)) =
      some ((List.range kNumLevels).map files) := mapM_eq_some_map fun level _ => hsave level
  have hget : ∀ level, (((List.range kNumLevels).map files)[level]?).getD [] =
      if level < kNumLevels then files level else [] := by
    intro level
    rw [List.getElem?_map]
    by_cases hl : level < kNumLevels
    · rw [List.getElem?_range hl, if_pos hl]
      rfl
    · rw [if_neg hl, List.getElem?_eq_none (by simpa using hl)]
      rfl
  refine ⟨fun level => (((List.range kNumLevels).map files)[level]?).getD [], ?_, ?_, ?_, ?_, ?_⟩
  · rw [build, Builder.saveTo, hall]
    rfl
  · intro level hl f
    dsimp only
    rw [hget, if_pos hl, (hperm level).mem_iff, List.mem_filter, stays_iff hnew hfresh,
      decide_eq_true_eq]
  · intro level hl
    dsimp only
    rw [hget, if_neg (by omega)]
  · intro level hpos
    dsimp only
    rw [hget]
    split
    · exact hap level hpos
    · exact List.Pairwise.nil
  · dsimp only
    rw [hget, if_pos (by decide), (hperm 0).nodup_iff]
    refine ((nodup_addedFiles hnew 0).append hnodup ?_).filter _
    intro f hf hf'
    exact hfresh 0 f ((mem_addedFiles hnew 0 f).mp hf) f hf' rfl

end Build

end KfkClient.Engine
