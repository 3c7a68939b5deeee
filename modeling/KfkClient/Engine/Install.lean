import KfkClient.Engine.VersionBuilder
import KfkClient.Engine.VersionGet

/-!
# Installing new files

When new files go to one level of a well placed version, and the files that stay are on the
right side of them, the builder's result is well placed again.

## Main results

- `install_spec` — the version after an edit that adds files to one level
- `pickLevelForMemTableOutput_spec` — a memtable goes below level 0 only past levels it
  does not overlap
-/

namespace KfkClient.Engine

open MultiVersion

variable {K V : Type} [LinearOrder K]

/-- The edit deletes the files `ds` and adds the files `news` to the level. -/
def levelEdit (ds : List (ℕ × ℕ)) (level : ℕ) (news : List (FileMetaData K V)) :
    VersionEdit K V where
  deletedFiles := ds
  newFiles := news.map fun f => (level, f)

/-- What makes it safe to add the files `news` to a level while the files `ds` go. -/
structure Installable (v : Version K V) (ds : List (ℕ × ℕ)) (level : ℕ)
    (news : List (FileMetaData K V)) : Prop where
  level_lt : level < kNumLevels
  numbers : news.Pairwise fun f g => f.number ≠ g.number
  fresh : ∀ f ∈ news, ∀ g ∈ v level, g.number ≠ f.number
  unique : ∀ f ∈ news, ∀ i, ∀ g ∈ v i, (i, g.number) ∉ ds → g.number ≠ f.number
  separate : 0 < level → ∀ f ∈ news, ∀ g ∈ v level, (level, g.number) ∉ ds → Separate f g
  separate_new : 0 < level → ∀ f ∈ news, ∀ g ∈ news, f ≠ g → Separate f g
  above : ∀ f ∈ news, ∀ i < level, ∀ g ∈ v i, (i, g.number) ∉ ds → Above g.entries f.entries
  below : ∀ f ∈ news, ∀ i, level < i → ∀ g ∈ v i, (i, g.number) ∉ ds →
    Above f.entries g.entries
  newest : level = 0 → ∀ f ∈ news, ∀ g ∈ v 0, (0, g.number) ∉ ds →
    g.number < f.number ∧ Above f.entries g.entries
  one : level = 0 → ∀ f ∈ news, ∀ g ∈ news, f = g

section Install

variable {v : Version K V} {ds : List (ℕ × ℕ)} {level : ℕ} {news : List (FileMetaData K V)}

theorem stays_levelEdit {l : ℕ} {f : FileMetaData K V} :
    Stays v (levelEdit ds level news) l f ↔
      f ∈ v l ∧ (l, f.number) ∉ ds ∨ l = level ∧ f ∈ news := by
  simp only [Stays, levelEdit, List.mem_map, Prod.mk.injEq]
  constructor
  · rintro (h | ⟨g, hg, rfl, rfl⟩)
    · exact .inl h
    · exact .inr ⟨rfl, hg⟩
  · rintro (h | ⟨rfl, hf⟩)
    · exact .inl h
    · exact .inr ⟨f, hf, rfl, rfl⟩

variable (hv : v.WellPlaced) (h : Installable v ds level news)
include hv h

theorem Installable.separate_stays {l : ℕ} (hl : 0 < l) {f g : FileMetaData K V}
    (hf : Stays v (levelEdit ds level news) l f) (hg : Stays v (levelEdit ds level news) l g)
    (hne : f ≠ g) : Separate f g := by
  rw [stays_levelEdit] at hf hg
  rcases hf with ⟨hf, hfd⟩ | ⟨rfl, hf⟩ <;> rcases hg with ⟨hg, hgd⟩ | ⟨hgl, hg⟩
  · exact (hv.apart l hl).separate hf hg hne
  · subst hgl
    exact (h.separate hl g hg f hf hfd).symm
  · exact h.separate hl f hf g hg hgd
  · exact h.separate_new hl f hf g hg hne

theorem Installable.above_stays {i j : ℕ} (hij : i < j) {f g : FileMetaData K V}
    (hf : Stays v (levelEdit ds level news) i f) (hg : Stays v (levelEdit ds level news) j g) :
    Above f.entries g.entries := by
  rw [stays_levelEdit] at hf hg
  rcases hf with ⟨hf, hfd⟩ | ⟨rfl, hf⟩ <;> rcases hg with ⟨hg, hgd⟩ | ⟨hgl, hg⟩
  · exact hv.above i j hij f hf g hg
  · subst hgl
    exact h.above g hg i hij f hf hfd
  · exact h.below f hf j hij g hg hgd
  · exact absurd hij hgl.not_gt

theorem Installable.numbers_stays {i j : ℕ} {f g : FileMetaData K V}
    (hf : Stays v (levelEdit ds level news) i f) (hg : Stays v (levelEdit ds level news) j g)
    (hnum : f.number = g.number) : i = j ∧ f = g := by
  rw [stays_levelEdit] at hf hg
  rcases hf with ⟨hf, hfd⟩ | ⟨rfl, hf⟩ <;> rcases hg with ⟨hg, hgd⟩ | ⟨hgl, hg⟩
  · exact hv.numbers i j f hf g hg hnum
  · exact absurd hnum (h.unique g hg i f hf hfd)
  · exact absurd hnum.symm (h.unique f hf j g hg hgd)
  · refine ⟨hgl.symm, ?_⟩
    by_contra hne
    have hsymm : Std.Symm fun f g : FileMetaData K V => f.number ≠ g.number :=
      ⟨fun _ _ h => h.symm⟩
    exact h.numbers.forall hf hg hne hnum

theorem Installable.newest_stays {f g : FileMetaData K V}
    (hf : Stays v (levelEdit ds level news) 0 f) (hg : Stays v (levelEdit ds level news) 0 g)
    (hlt : f.number < g.number) : Above g.entries f.entries := by
  rw [stays_levelEdit] at hf hg
  rcases hf with ⟨hf, hfd⟩ | ⟨hfl, hf⟩ <;> rcases hg with ⟨hg, hgd⟩ | ⟨hgl, hg⟩
  · exact hv.newest f hf g hg hlt
  · exact (h.newest hgl.symm g hg f hf hfd).2
  · have hle := (h.newest hfl.symm f hf g hg hgd).1
    omega
  · rw [h.one hfl.symm f hf g hg] at hlt
    exact absurd hlt (lt_irrefl _)

/-- The builder puts the new files beside those that stay. -/
theorem install_spec : ∃ v', build v (levelEdit ds level news) = some v' ∧ v'.WellPlaced ∧
    ∀ l f, f ∈ v' l ↔ f ∈ v l ∧ (l, f.number) ∉ ds ∨ l = level ∧ f ∈ news := by
  have hnew : (levelEdit ds level news).newFiles.Pairwise fun p q => p.2.number ≠ q.2.number :=
    List.pairwise_map.mpr h.numbers
  have hfresh : ∀ l f, (l, f) ∈ (levelEdit ds level news).newFiles →
      ∀ g ∈ v l, g.number ≠ f.number := by
    intro l f hmem
    obtain ⟨x, hx, hpair⟩ := List.mem_map.mp hmem
    obtain ⟨rfl, rfl⟩ := Prod.mk.inj hpair
    exact h.fresh x hx
  obtain ⟨v', hbuild, hmem, hlevels, hapart, hnodup⟩ := build_spec hnew hfresh hv.apart hv.nodup
    fun l hl f g hf hg hne => h.separate_stays hv hl hf hg hne
  have hstays : ∀ l f, f ∈ v' l ↔ Stays v (levelEdit ds level news) l f := by
    intro l f
    by_cases hl : l < kNumLevels
    · exact hmem l hl f
    · rw [hlevels l (by omega), stays_levelEdit, hv.levels l (by omega)]
      have hlt := h.level_lt
      simp only [List.not_mem_nil, false_and, false_or, false_iff, not_and]
      intro heq
      omega
  refine ⟨v', hbuild, ⟨hlevels, hapart, hnodup, ?_, ?_, ?_⟩, fun l f => ?_⟩
  · intro i j f hf g hg
    exact h.numbers_stays hv ((hstays i f).mp hf) ((hstays j g).mp hg)
  · intro f hf g hg
    exact h.newest_stays hv ((hstays 0 f).mp hf) ((hstays 0 g).mp hg)
  · intro i j hij f hf g hg
    exact h.above_stays hv hij ((hstays i f).mp hf) ((hstays j g).mp hg)
  · rw [hstays, stays_levelEdit]

end Install

/-! ## Where a memtable goes -/

theorem overlapInLevel_iff {v : Version K V} (hv : v.WellPlaced) {level : ℕ}
    (hmax : ∀ f ∈ v level, f.largest.sequence ≤ kMaxSequenceNumber) (lo hi : K) :
    overlapInLevel v level lo hi = true ↔ ∃ f ∈ v level, f.Overlaps lo hi :=
  someFileOverlapsRange_iff (fun hlevel => hv.apart level (of_decide_eq_true hlevel)) hmax lo hi

section PickLevel

variable {v : Version K V} (hv : v.WellPlaced)
  (hmax : ∀ level, ∀ f ∈ v level, f.largest.sequence ≤ kMaxSequenceNumber)
include hv hmax

theorem pickLevelLoop_spec (maxFileSize : ℕ) {lo hi : K} {level : ℕ} (fuel : ℕ)
    (h : ∀ i ≤ level, ∀ f ∈ v i, ¬ f.Overlaps lo hi) :
    pickLevelLoop maxFileSize v lo hi level fuel ≤ level + fuel ∧
      ∀ i ≤ pickLevelLoop maxFileSize v lo hi level fuel, ∀ f ∈ v i, ¬ f.Overlaps lo hi := by
  induction fuel generalizing level with
  | zero => exact ⟨le_rfl, h⟩
  | succ fuel ih =>
    rw [pickLevelLoop]
    split
    · exact ⟨by omega, h⟩
    · rename_i hover
      split
      · exact ⟨by omega, h⟩
      · have hnext : ∀ i ≤ level + 1, ∀ f ∈ v i, ¬ f.Overlaps lo hi := by
          intro i hi' f hf hov
          rcases Nat.lt_or_ge level i with hlt | hle
          · obtain rfl : i = level + 1 := by omega
            exact hover ((overlapInLevel_iff hv (hmax _) lo hi).mpr ⟨f, hf, hov⟩)
          · exact h i hle f hf hov
        obtain ⟨hle, hmiss⟩ := ih hnext
        exact ⟨by omega, hmiss⟩

theorem pickLevelForMemTableOutput_spec (maxFileSize : ℕ) (lo hi : K) :
    pickLevelForMemTableOutput maxFileSize v lo hi ≤ kMaxMemCompactLevel ∧
      (0 < pickLevelForMemTableOutput maxFileSize v lo hi →
        ∀ i ≤ pickLevelForMemTableOutput maxFileSize v lo hi, ∀ f ∈ v i, ¬ f.Overlaps lo hi) := by
  rw [pickLevelForMemTableOutput]
  split
  · exact ⟨Nat.zero_le _, fun h => absurd h (lt_irrefl 0)⟩
  · rename_i hover
    have hzero : ∀ i ≤ 0, ∀ f ∈ v i, ¬ f.Overlaps lo hi := by
      intro i hi' f hf hov
      obtain rfl : i = 0 := by omega
      exact hover ((overlapInLevel_iff hv (hmax 0) lo hi).mpr ⟨f, hf, hov⟩)
    obtain ⟨hle, hmiss⟩ := pickLevelLoop_spec hv hmax maxFileSize kMaxMemCompactLevel hzero
    exact ⟨by omega, fun _ => hmiss⟩

end PickLevel

end KfkClient.Engine
