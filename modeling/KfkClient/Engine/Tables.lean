import KfkClient.Engine.Version

/-!
# Memtables and the tables built from them (`memtable.cc`, `builder.cc`, `table_builder.cc`)

A memtable holds its entries in the order of their internal keys, and a table takes them in
that order only: both carry the proof. What they do not accept fails an assertion of the
source.

## Main results

- `MemTable.mem_add` — an insertion adds the entry and keeps the others
- `buildTable_spec` — the table of a memtable has the memtable's entries
-/

namespace KfkClient.Engine

open MultiVersion

variable {K V : Type} [LinearOrder K]

structure MemTable (K V : Type) [LinearOrder K] where
  content : List (Entry K V)
  sorted : Sorted content

namespace MemTable

def empty : MemTable K V := ⟨[], List.Pairwise.nil⟩

def entries (m : MemTable K V) : Set (Entry K V) := Engine.entries m.content

/-- The place of an entry in a sorted run: before the first one that is not before it. -/
def insertSorted (e : Entry K V) (es : List (Entry K V)) : List (Entry K V) :=
  es.takeWhile (fun x => decide (Entry.ikey x < Entry.ikey e)) ++
    e :: es.dropWhile fun x => decide (Entry.ikey x < Entry.ikey e)

theorem le_of_mem_dropWhile {e x : Entry K V} {es : List (Entry K V)} (hes : Sorted es)
    (hx : x ∈ es.dropWhile fun x => decide (Entry.ikey x < Entry.ikey e)) :
    Entry.ikey e ≤ Entry.ikey x := by
  induction es with
  | nil => exact absurd hx List.not_mem_nil
  | cons y es ih =>
    obtain ⟨hfirst, hrest⟩ := List.pairwise_cons.mp hes
    rw [List.dropWhile_cons] at hx
    split at hx
    · exact ih hrest hx
    · rename_i hlt
      have hle : Entry.ikey e ≤ Entry.ikey y := by simpa using hlt
      rcases List.mem_cons.mp hx with rfl | hx
      · exact hle
      · exact hle.trans (hfirst x hx).le

theorem insertSorted_sorted {e : Entry K V} {es : List (Entry K V)} (hes : Sorted es)
    (hnew : ∀ x ∈ es, Entry.ikey x ≠ Entry.ikey e) : Sorted (insertSorted e es) := by
  rw [insertSorted]
  set front := es.takeWhile fun x => decide (Entry.ikey x < Entry.ikey e)
  set back := es.dropWhile fun x => decide (Entry.ikey x < Entry.ikey e) with hback
  have hsplit : front ++ back = es := List.takeWhile_append_dropWhile
  have hfront : ∀ x ∈ front, Entry.ikey x < Entry.ikey e := fun x hx => by
    simpa using List.mem_takeWhile_imp hx
  have hafter : ∀ x ∈ back, Entry.ikey e < Entry.ikey x := fun x hx =>
    lt_of_le_of_ne (le_of_mem_dropWhile hes hx)
      (hnew x (hsplit ▸ List.mem_append_right _ hx)).symm
  rw [← hsplit] at hes
  obtain ⟨hsf, hsb, hcross⟩ := List.pairwise_append.mp hes
  refine List.pairwise_append.mpr ⟨hsf, List.pairwise_cons.mpr ⟨hafter, hsb⟩, ?_⟩
  intro x hx y hy
  rcases List.mem_cons.mp hy with rfl | hy
  · exact hfront x hx
  · exact hcross x hx y hy

theorem mem_insertSorted {e x : Entry K V} {es : List (Entry K V)} :
    x ∈ insertSorted e es ↔ x = e ∨ x ∈ es := by
  have hsplit : x ∈ es ↔ x ∈ es.takeWhile (fun x => decide (Entry.ikey x < Entry.ikey e)) ∨
      x ∈ es.dropWhile fun x => decide (Entry.ikey x < Entry.ikey e) := by
    rw [← List.mem_append, List.takeWhile_append_dropWhile]
  rw [insertSorted, List.mem_append, List.mem_cons, hsplit]
  tauto

/-- `MemTable::Add`; the skip list asserts that the key is new. -/
def add (m : MemTable K V) (e : Entry K V) : Option (MemTable K V) :=
  if h : ∀ x ∈ m.content, Entry.ikey x ≠ Entry.ikey e then
    some ⟨insertSorted e m.content, insertSorted_sorted m.sorted h⟩
  else none

/-- `MemTable::Get` -/
def get (m : MemTable K V) (k : K) (s : ℕ) : Option (Option V) := lookup m.content k s

theorem get_answers (m : MemTable K V) (k : K) (s : ℕ) : Answers m.entries s k (m.get k s) :=
  lookup_answers m.sorted k s

@[simp] theorem entries_empty : (empty : MemTable K V).entries = ∅ := by
  ext e
  simp [entries, Engine.entries, empty]

/-- An entry with a new sequence number is accepted. -/
theorem add_spec {m : MemTable K V} {e : Entry K V} (h : ∀ x ∈ m.entries, x.seq ≠ e.seq) :
    ∃ m', m.add e = some m' ∧ m'.entries = insert e m.entries := by
  have hnew : ∀ x ∈ m.content, Entry.ikey x ≠ Entry.ikey e := fun x hx heq =>
    h x hx (congrArg InternalKey.sequence heq)
  refine ⟨⟨insertSorted e m.content, insertSorted_sorted m.sorted hnew⟩, dif_pos hnew, ?_⟩
  ext x
  exact mem_insertSorted

end MemTable

/-! ## Tables -/

structure TableBuilder (K V : Type) [LinearOrder K] where
  content : List (Entry K V)
  sorted : Sorted content

namespace TableBuilder

def empty : TableBuilder K V := ⟨[], List.Pairwise.nil⟩

theorem sorted_snoc {es : List (Entry K V)} {e : Entry K V} (hes : Sorted es)
    (hlast : ∀ last ∈ es.getLast?, Entry.ikey last < Entry.ikey e) : Sorted (es ++ [e]) := by
  refine List.pairwise_append.mpr ⟨hes, List.pairwise_singleton _ e, ?_⟩
  intro x hx y hy
  rw [List.mem_singleton.mp hy]
  obtain ⟨last, hget⟩ :=
    Option.isSome_iff_exists.mp (List.getLast?_isSome.mpr (List.ne_nil_of_mem hx))
  obtain ⟨front, hfront⟩ := List.getLast?_eq_some_iff.mp hget
  have hlt := hlast last hget
  rw [hfront] at hx
  rcases List.mem_append.mp hx with hx | hx
  · rw [Sorted, hfront] at hes
    exact ((List.pairwise_append.mp hes).2.2 x hx last (List.mem_singleton_self _)).trans hlt
  · rwa [List.mem_singleton.mp hx]

/-- `TableBuilder::Add` asserts that the keys ascend. -/
def add (b : TableBuilder K V) (e : Entry K V) : Option (TableBuilder K V) :=
  if h : ∀ last ∈ b.content.getLast?, Entry.ikey last < Entry.ikey e then
    some ⟨b.content ++ [e], sorted_snoc b.sorted h⟩
  else none

/-- The file, with the number it was opened under. Without an entry there is none. -/
def finish (b : TableBuilder K V) (number fileSize : ℕ) : Option (FileMetaData K V) :=
  if h : b.content = [] then none
  else some
    { number := number
      fileSize := fileSize
      smallest := Entry.ikey (b.content.head h)
      largest := Entry.ikey (b.content.getLast h)
      content := b.content
      sorted := b.sorted
      head_eq := by rw [List.head?_eq_some_head h]; rfl
      last_eq := by rw [List.getLast?_eq_some_getLast h]; rfl }

theorem finish_spec {b : TableBuilder K V} (h : b.content ≠ []) (number fileSize : ℕ) :
    ∃ f, b.finish number fileSize = some f ∧ f.content = b.content ∧ f.number = number := by
  exact ⟨_, dif_neg h, rfl, rfl⟩

theorem foldlM_add (b : TableBuilder K V) (es : List (Entry K V))
    (h : Sorted (b.content ++ es)) :
    ∃ b', es.foldlM add b = some b' ∧ b'.content = b.content ++ es := by
  induction es generalizing b with
  | nil => exact ⟨b, rfl, (List.append_nil _).symm⟩
  | cons e es ih =>
    have hlast : ∀ last ∈ b.content.getLast?, Entry.ikey last < Entry.ikey e := fun last hlast =>
      (List.pairwise_append.mp h).2.2 last (List.mem_of_getLast? hlast) e List.mem_cons_self
    have hadd : b.add e = some ⟨b.content ++ [e], sorted_snoc b.sorted hlast⟩ := dif_pos hlast
    have hassoc : b.content ++ e :: es = b.content ++ [e] ++ es := by
      rw [List.append_assoc, List.singleton_append]
    rw [hassoc] at h ⊢
    obtain ⟨b', hb', hcontent⟩ := ih ⟨b.content ++ [e], sorted_snoc b.sorted hlast⟩ h
    refine ⟨b', ?_, hcontent⟩
    rw [List.foldlM_cons, hadd]
    exact hb'

end TableBuilder

/-- `BuildTable`: the inner `none` is a file of no entries, which is not kept; `fileSize` says
how long a file of some entries gets. -/
def buildTable (fileSize : List (Entry K V) → ℕ) (m : MemTable K V) (number : ℕ) :
    Option (Option (FileMetaData K V)) := do
  let b ← m.content.foldlM TableBuilder.add TableBuilder.empty
  some (b.finish number (fileSize b.content))

theorem buildTable_spec (fileSize : List (Entry K V) → ℕ) (m : MemTable K V) (number : ℕ) :
    (m.content = [] ∧ buildTable fileSize m number = some none) ∨
      ∃ f, buildTable fileSize m number = some (some f) ∧ f.content = m.content ∧
        f.number = number := by
  obtain ⟨b, hb, hcontent⟩ := TableBuilder.foldlM_add TableBuilder.empty m.content m.sorted
  have hbuild : buildTable fileSize m number = some (b.finish number (fileSize b.content)) := by
    rw [buildTable, hb]
    rfl
  rw [TableBuilder.empty, List.nil_append] at hcontent
  by_cases hempty : m.content = []
  · refine .inl ⟨hempty, ?_⟩
    rw [hbuild, TableBuilder.finish, dif_pos (hcontent.trans hempty)]
  · obtain ⟨f, hf, hfc, hfn⟩ := b.finish_spec (hcontent ▸ hempty) number (fileSize b.content)
    exact .inr ⟨f, by rw [hbuild, hf], hfc.trans hcontent, hfn⟩

end KfkClient.Engine
