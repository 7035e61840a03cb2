import CryptoScan.Python.FileTree
import CryptoScan.Python.Dict
import CryptoScan.Python.Float
import Mathlib.Data.List.Dedup

/-!
# `categorize.py`: documents, their categories, and the vector query

A `Doc` holds the stored samples a query returned, each with its category, distance and id. Three
traversals of that one list have to agree: which categories there are (`distinctCategories`), how
often one occurs (`count`), and which sample of a category is nearest (`getIdOfCategory`).

`nearest_spec` is the functional description of the last: it fails exactly on an absent category,
and otherwise returns the earliest of the nearest samples of that category. What the rest of the
list holds, and in which order, matters only for ties (`getIdOfCategory_perm`,
`getIdOfCategory_congr_filter`). `nearest_any_distance` is the same for distances that need not be
finite.

The part of the world that the program talks to — files, the vector store, the language model — is
the structure `World`. The functions that make these calls are written for any monad in which they
can be made (`Calls`), so that the same code runs on fixed answers here and on services that have a
state in `Scan/Stateful.lean`.
-/

namespace CryptoScan

open Python

/-! ## The outside world -/

/-- The metadata every sample is stored with (`vecstore.py`). -/
structure Metadata where
  category : Text
  deriving DecidableEq

/-- What `collection.query` returns: one row per query text. -/
structure QueryResult where
  ids : List (List Text)
  metadatas : List (List Metadata)
  distances : List (List PyFloat)

structure ToolCall where
  name : Text
  arguments : Dict Text Text

/-- The `message` of a chat reply. -/
structure ChatMessage where
  toolCalls : Option (List ToolCall)
  content : Option Text

/-- The calls that are made while a folder is scanned, in the monad they are made in. A missing key
of a reply is `none`. -/
structure Calls (m : Type → Type) where
  /-- `open(path).read()` -/
  read : (path : Path) → m Text
  /-- `collection.query(query_texts=[text], n_results=n)` -/
  query : (text : Text) → (n : Nat) → m QueryResult
  /-- `client.generate(model, prompt).get("response")` -/
  generate : (model prompt : Text) → m (Option Text)

/-- The answers to the calls that leave the program. Each may raise. A service need not answer the
same question twice in the same way; the program asks each of them at most once for a file, so the
answers are told apart by the file the call is made for. -/
structure World where
  /-- the tree `os.walk` finds at a path, if there is a directory -/
  directory : Path → Option Dir
  /-- `open(path).read()` -/
  read : Path → Except Exc Text
  /-- `collection.query(query_texts=[text], n_results=n)` -/
  query : (file : Path) → (text : Text) → (n : Nat) → Except Exc QueryResult
  /-- `client.generate(model, prompt).get("response")` -/
  generate : (file : Path) → (model prompt : Text) → Except Exc (Option Text)
  /-- `client.chat(model, messages=[prompt], tools=…)["message"]` -/
  chat : (file : Path) → (model prompt : Text) → Except Exc ChatMessage

/-- The calls made for one file. -/
def World.calls (w : World) (file : Path) : Calls (Except Exc) := ⟨w.read, w.query file, w.generate file⟩

/-! ## Documents -/

structure DocCategory where
  category : Text
  distance : PyFloat
  id : Text
  deriving DecidableEq

structure Doc where
  code : Text
  categories : List DocCategory

namespace Doc

/-- `list(set(…))`. A set has no order; nothing below depends on the one chosen here. -/
def distinctCategories (d : Doc) : List Text := (d.categories.map (·.category)).dedup

def count (d : Doc) (category : Text) : Nat :=
  (d.categories.filter (·.category == category)).length

def getIdOfCategory (d : Doc) (category : Text) : Except Exc Text :=
  match (runningMin (fun e => e.category == category) DocCategory.distance DocCategory.id
      d.categories).best with
  | none => .error (.valueError (txt "Could not find document with category " ++ category))
  | some id => .ok id

end Doc

def classifyDoc (d : Doc) : Text :=
  match d.distinctCategories with
  | [c] => c
  | _ => txt "NOCRYPTO"

/-! ## The query for one file -/

/-- The dictionary `classify_file` returns. -/
structure FileMetadata where
  categories : List Metadata
  distances : List PyFloat
  ids : List Text

/-- `xs[0]`. -/
def item0 {α : Type} : List α → Except Exc α
  | [] => .error (.indexError (txt "list index out of range"))
  | x :: _ => .ok x

/-- The first row of each kind; there was one query text. -/
def QueryResult.response (documents : QueryResult) : Except Exc FileMetadata := do
  let ids ← item0 documents.ids
  let categories ← item0 documents.metadatas
  let distances ← item0 documents.distances
  pure ⟨categories, distances, ids⟩

def Calls.classifyFile {m : Type → Type} [Monad m] [MonadExcept Exc m] (calls : Calls m)
    (filePath : Path) : m FileMetadata := do
  let text ← calls.read filePath
  let documents ← calls.query text 4
  MonadExcept.ofExcept documents.response

/-- `classify_file(file_path)` on the answers for that file. -/
def classifyFile (w : World) (filePath : Path) : Except Exc FileMetadata :=
  (w.calls filePath).classifyFile filePath

@[simp] theorem ofExcept_eq_self {α : Type} (x : Except Exc α) :
    (MonadExcept.ofExcept x : Except Exc α) = x := by
  cases x <;> rfl

theorem classifyFile_eq (w : World) (filePath : Path) :
    classifyFile w filePath =
      w.read filePath >>= fun text => w.query filePath text 4 >>= QueryResult.response := by
  unfold classifyFile Calls.classifyFile
  simp only [ofExcept_eq_self]
  rfl

/-! ## The nearest sample of a category -/

namespace Doc

/-- What `getIdOfCategory` is for: `e` is the earliest of the nearest samples of category `c`. -/
def IsNearest (es : List DocCategory) (c : Text) (e : DocCategory) : Prop :=
  e.category = c ∧ ∃ pre post, es = pre ++ e :: post ∧
    (∀ x ∈ pre, x.category = c → e.distance.value < x.distance.value) ∧
    ∀ x ∈ post, x.category = c → e.distance.value ≤ x.distance.value

/-- The samples of one category. -/
def ofCategory (d : Doc) (c : Text) : List DocCategory := d.categories.filter (·.category == c)

theorem mem_ofCategory {d : Doc} {c : Text} {e : DocCategory} :
    e ∈ d.ofCategory c ↔ e ∈ d.categories ∧ e.category = c := by
  simp [ofCategory]

theorem count_eq_zero_iff {d : Doc} {c : Text} : d.count c = 0 ↔ d.ofCategory c = [] :=
  List.length_eq_zero_iff

theorem count_eq_zero_iff_not_mem {d : Doc} {c : Text} :
    d.count c = 0 ↔ c ∉ d.distinctCategories := by
  rw [count_eq_zero_iff, distinctCategories, List.mem_dedup, List.mem_map, ofCategory,
    List.filter_eq_nil_iff]
  simp

theorem getIdOfCategory_eq {d : Doc} (hfin : ∀ e ∈ d.categories, e.distance.IsFinite) (c : Text) :
    d.getIdOfCategory c =
      match (d.ofCategory c).argmin (·.distance.value) with
      | none => .error (.valueError (txt "Could not find document with category " ++ c))
      | some e => .ok e.id := by
  unfold getIdOfCategory
  rw [runningMin_best _ _ _ hfin]
  show _ = match (d.categories.filter (·.category == c)).argmin (·.distance.value) with
    | none => _
    | some e => _
  cases (d.categories.filter (·.category == c)).argmin (·.distance.value) <;> rfl

/-- The earliest minimum among the samples of a category, seen in the whole list. -/
theorem isNearest_of_argmin {d : Doc} {c : Text} {e : DocCategory}
    (h : (d.ofCategory c).argmin (·.distance.value) = some e) : IsNearest d.categories c e := by
  obtain ⟨he, pre, post, heq, hpre, hpost⟩ := append_of_argmin_filter h
  exact ⟨by simpa using he, pre, post, heq, fun x hx hc => hpre x hx (by simpa using hc),
    fun x hx hc => hpost x hx (by simpa using hc)⟩

theorem IsNearest.mem {es : List DocCategory} {c : Text} {e : DocCategory}
    (h : IsNearest es c e) : e ∈ es := by
  obtain ⟨-, pre, post, rfl, -, -⟩ := h
  simp

theorem IsNearest.le {es : List DocCategory} {c : Text} {e x : DocCategory}
    (h : IsNearest es c e) (hx : x ∈ es) (hc : x.category = c) :
    e.distance.value ≤ x.distance.value := by
  obtain ⟨-, pre, post, rfl, hpre, hpost⟩ := h
  rcases List.mem_append.mp hx with hx | hx
  · exact (hpre x hx hc).le
  · rcases List.mem_cons.mp hx with rfl | hx
    · exact le_refl _
    · exact hpost x hx hc

/-- A category that occurs has a nearest sample, and its id is the answer. -/
theorem exists_nearest {d : Doc} (hfin : ∀ e ∈ d.categories, e.distance.IsFinite) {c : Text}
    (hc : d.count c ≠ 0) :
    ∃ e, IsNearest d.categories c e ∧ d.getIdOfCategory c = .ok e.id := by
  rw [getIdOfCategory_eq hfin]
  cases hmin : (d.ofCategory c).argmin (·.distance.value) with
  | none => exact absurd (count_eq_zero_iff.mpr (List.argmin_eq_none.mp hmin)) hc
  | some e => exact ⟨e, isNearest_of_argmin hmin, rfl⟩

theorem getIdOfCategory_of_count_eq_zero {d : Doc} {c : Text}
    (hfin : ∀ e ∈ d.categories, e.distance.IsFinite) (hc : d.count c = 0) :
    d.getIdOfCategory c =
      .error (.valueError (txt "Could not find document with category " ++ c)) := by
  rw [getIdOfCategory_eq hfin, count_eq_zero_iff.mp hc]
  rfl

/-- The answer depends on the samples of the category only, whatever their distances are. -/
theorem getIdOfCategory_congr_filter {d d' : Doc} {c : Text}
    (h : d.ofCategory c = d'.ofCategory c) : d.getIdOfCategory c = d'.getIdOfCategory c := by
  unfold getIdOfCategory
  rw [← runningMin_filter, ← runningMin_filter (l := d'.categories)]
  unfold ofCategory at h
  rw [h]

/-- Reordering the samples can change the answer only between nearest ones. -/
theorem getIdOfCategory_perm {d d' : Doc} (hfin : ∀ e ∈ d.categories, e.distance.IsFinite)
    (c : Text) (hperm : d'.categories.Perm d.categories) :
    d'.getIdOfCategory c = d.getIdOfCategory c ∨
      ∃ e ∈ d.ofCategory c, ∃ e' ∈ d.ofCategory c,
        d.getIdOfCategory c = .ok e.id ∧ d'.getIdOfCategory c = .ok e'.id ∧
        e.distance = e'.distance ∧
        ∀ x ∈ d.ofCategory c, e.distance.value ≤ x.distance.value := by
  have hfin' : ∀ e ∈ d'.categories, e.distance.IsFinite :=
    fun e he => hfin e (hperm.mem_iff.mp he)
  have hcount : d'.count c = d.count c := (hperm.filter _).length_eq
  by_cases h0 : d.count c = 0
  · left
    rw [getIdOfCategory_of_count_eq_zero hfin h0,
      getIdOfCategory_of_count_eq_zero hfin' (hcount.trans h0)]
  · right
    obtain ⟨e, he, hei⟩ := exists_nearest hfin h0
    obtain ⟨e', he', hei'⟩ := exists_nearest hfin' (hcount ▸ h0)
    have hmem' : e' ∈ d.categories := hperm.mem_iff.mp he'.mem
    -- each is at most the other: both are minimal over the same samples
    have hle : e.distance.value ≤ e'.distance.value := he.le hmem' he'.1
    have hle' : e'.distance.value ≤ e.distance.value := he'.le (hperm.mem_iff.mpr he.mem) he.1
    have hdist : e.distance = e'.distance := by
      rw [(hfin e he.mem).eq, (hfin e' hmem').eq, le_antisymm hle hle']
    refine ⟨e, mem_ofCategory.mpr ⟨he.mem, he.1⟩, e', mem_ofCategory.mpr ⟨hmem', he'.1⟩, hei, hei',
      hdist, ?_⟩
    intro x hx
    obtain ⟨hx, hc⟩ := mem_ofCategory.mp hx
    exact he.le hx hc

/-- **The nearest sample.** `getIdOfCategory` raises `ValueError` exactly on a category that does
not occur, and otherwise returns the id of the earliest of the nearest samples; so the order of
the samples matters for ties only, and samples of other categories not at all. -/
theorem nearest_spec (d : Doc) (hfin : ∀ e ∈ d.categories, e.distance.IsFinite) (c : Text) :
    ((∃ msg, d.getIdOfCategory c = .error (.valueError msg)) ↔ d.count c = 0) ∧
    (d.count c = 0 ↔ c ∉ d.distinctCategories) ∧
    (d.count c ≠ 0 → ∃ e, IsNearest d.categories c e ∧ d.getIdOfCategory c = .ok e.id) ∧
    (∀ d' : Doc, d'.categories.Perm d.categories →
      d'.getIdOfCategory c = d.getIdOfCategory c ∨
        ∃ e ∈ d.ofCategory c, ∃ e' ∈ d.ofCategory c,
          d.getIdOfCategory c = .ok e.id ∧ d'.getIdOfCategory c = .ok e'.id ∧
          e.distance = e'.distance ∧
          ∀ x ∈ d.ofCategory c, e.distance.value ≤ x.distance.value) ∧
    ∀ d' : Doc, d'.ofCategory c = d.ofCategory c →
      d'.getIdOfCategory c = d.getIdOfCategory c := by
  refine ⟨⟨?_, ?_⟩, count_eq_zero_iff_not_mem, exists_nearest hfin,
    fun d' => getIdOfCategory_perm hfin c, fun d' => getIdOfCategory_congr_filter⟩
  · rintro ⟨msg, hmsg⟩
    by_contra h0
    obtain ⟨e, -, he⟩ := exists_nearest hfin h0
    rw [he] at hmsg
    cases hmsg
  · intro h0
    exact ⟨_, getIdOfCategory_of_count_eq_zero hfin h0⟩

/-- Two samples of category `A` tie at the least distance, behind a nearer one of category `B`. -/
def sample : Doc :=
  ⟨[], [⟨['A'], .finite 2, ['w']⟩, ⟨['B'], .finite 0, ['x']⟩, ⟨['A'], .finite 1, ['y']⟩,
    ⟨['A'], .finite 1, ['z']⟩]⟩

theorem nearest_spec_sample :
    sample.getIdOfCategory ['A'] = .ok ['y'] ∧
      ∃ e, IsNearest sample.categories ['A'] e ∧ sample.getIdOfCategory ['A'] = .ok e.id :=
  ⟨by decide, (nearest_spec sample (by decide) ['A']).2.2.1 (by decide)⟩

/-! ## Any distances -/

theorem getIdOfCategory_eq_any (d : Doc) (c : Text) :
    d.getIdOfCategory c =
      match ((d.ofCategory c).filter (·.distance.lt .posInf)).argmin (·.distance.rank) with
      | none => .error (.valueError (txt "Could not find document with category " ++ c))
      | some e => .ok e.id := by
  have hfilter : (d.ofCategory c).filter (·.distance.lt .posInf) =
      d.categories.filter fun e => e.category == c && e.distance.lt .posInf := by
    rw [ofCategory, List.filter_filter]
    congr 1
    funext e
    exact Bool.and_comm _ _
  unfold getIdOfCategory
  rw [runningMin_best_any, hfilter]
  cases (d.categories.filter fun e => e.category == c && e.distance.lt .posInf).argmin
    (·.distance.rank) <;> rfl

/-- The nearest of the samples below `inf`, among all samples of the category. -/
theorem split_of_argmin {d : Doc} {c : Text} {e : DocCategory}
    (hmin : ((d.ofCategory c).filter (·.distance.lt .posInf)).argmin (·.distance.rank) = some e) :
    (e.distance ≠ .posInf ∧ e.distance ≠ .nan) ∧
      ∃ pre post, d.ofCategory c = pre ++ e :: post ∧
        (∀ x ∈ pre, e.distance.lt x.distance = true ∨ x.distance = .nan) ∧
        ∀ x ∈ post, x.distance.lt e.distance = false := by
  obtain ⟨hlt, pre, post, heq, hpre, hpost⟩ := append_of_argmin_filter hmin
  refine ⟨PyFloat.lt_posInf_iff.mp hlt, pre, post, heq, ?_, ?_⟩
  · intro x hx
    by_cases hxlt : x.distance.lt .posInf = true
    · rw [PyFloat.lt_eq_rank hlt hxlt]
      exact .inl (decide_eq_true (hpre x hx hxlt))
    · -- not below `inf`: at `inf`, where `e` is nearer, or at `nan`
      rw [PyFloat.lt_posInf_iff, not_and_or, not_not, not_not] at hxlt
      rcases hxlt with h | h
      · rw [h]
        exact .inl hlt
      · exact .inr h
  · intro x hx
    by_contra hnear
    rw [Bool.not_eq_false] at hnear
    have hxlt := PyFloat.lt_posInf_of_lt hnear
    rw [PyFloat.lt_eq_rank hxlt hlt, decide_eq_true_eq] at hnear
    exact absurd (hpost x hx hxlt) (not_le.mpr hnear)

/-- **The nearest sample, for any distances.** A category is not found exactly if all its samples are
at `inf` or `nan`. If one of them is at neither, an id is returned: that of a sample at neither, such
that no sample of the category is nearer and those before it are farther away or at `nan`. -/
theorem nearest_any_distance (d : Doc) (c : Text) :
    (d.getIdOfCategory c =
        .error (.valueError (txt "Could not find document with category " ++ c)) ↔
      ∀ e ∈ d.ofCategory c, e.distance = .posInf ∨ e.distance = .nan) ∧
    ((∃ e ∈ d.ofCategory c, e.distance ≠ .posInf ∧ e.distance ≠ .nan) →
      ∃ e pre post, d.getIdOfCategory c = .ok e.id ∧ d.ofCategory c = pre ++ e :: post ∧
        e.distance ≠ .posInf ∧ e.distance ≠ .nan ∧
        (∀ x ∈ pre, e.distance.lt x.distance = true ∨ x.distance = .nan) ∧
        ∀ x ∈ post, x.distance.lt e.distance = false) := by
  rw [getIdOfCategory_eq_any]
  cases hmin : ((d.ofCategory c).filter (·.distance.lt .posInf)).argmin (·.distance.rank) with
  | none =>
      have hall : ∀ e ∈ d.ofCategory c, e.distance = .posInf ∨ e.distance = .nan := by
        intro e he
        have hnot := List.filter_eq_nil_iff.mp (List.argmin_eq_none.mp hmin) e he
        rw [PyFloat.lt_posInf_iff, not_and_or, not_not, not_not] at hnot
        exact hnot
      refine ⟨iff_of_true rfl hall, ?_⟩
      rintro ⟨e, he, hinf, hnan⟩
      exact absurd (hall e he) (not_or.mpr ⟨hinf, hnan⟩)
  | some e =>
      obtain ⟨hbelow, pre, post, heq, hpre, hpost⟩ := split_of_argmin hmin
      have hmem : e ∈ d.ofCategory c := by
        rw [heq]
        simp
      refine ⟨iff_of_false (fun h => nomatch h) ?_, ?_⟩
      · intro hall
        exact absurd (hall e hmem) (not_or.mpr hbelow)
      · intro _
        exact ⟨e, pre, post, rfl, heq, hbelow.1, hbelow.2, hpre, hpost⟩

end Doc

end CryptoScan
