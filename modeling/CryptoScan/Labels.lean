import CryptoScan.Vecstore
import CryptoScan.Evaluate.Program

/-!
# Where the labels of a scan come from

The three programs together: samples are put into the collection (`vecstore.py`), a scan retrieves
from it or asks the model (`run.py`), and the labels are compared with directory names
(`evaluate.py`). Nothing checks a label on the way.

`label_origin` lists all there can be: the category of a sample that has not been replaced, a marked
member of the vocabulary that is in the model's answer, or that answer itself when no member is in
it. With one category in the store the label is known in advance (`single_category_store`). That
queries are answered from the collection is an assumption about `chromadb` (`RetrievesFrom`).

`parseAnswerV2_scores_iff` is what remains of the model's part in the score: there is one answer that
counts, and the parser does not know it. `correct_eq_count` puts the two routes together: how many
files of a tree an evaluation counts as correct, in terms of what was retrieved and answered.
-/

namespace CryptoScan

open Python

section Labels

variable {κ ε : Type} {chroma : Chroma κ ε} {sha256 : Text → Text} {us : List (Upload ε)} {w : World}
  {path : Path} {text answer label c : Text} {categories : List Text}

/-! ## The answers that score -/

theorem llmMark_append_not_mem (v : Text) : llmMark ++ v ∉ possibleCategories := by
  have hhead : ∀ c ∈ possibleCategories, c.head? ≠ some 'L' := by
    rw [possibleCategories_eq]
    decide
  exact fun h => hhead _ h rfl

theorem ellipticCurves_absent : ∀ v ∈ possibleCategories, ¬ v <:+: txt "ELLIPTIC_CURVES" := by
  have hname : txt "ELLIPTIC_CURVES" =
      ['E', 'L', 'L', 'I', 'P', 'T', 'I', 'C', '_', 'C', 'U', 'R', 'V', 'E', 'S'] := rfl
  rw [possibleCategories_eq, hname]
  decide

/-- What the model's answer becomes: a marked category, or the answer itself. -/
theorem parseAnswerV2_cases (hp : parseAnswerV2 answer = .ok label) :
    (∃ v ∈ possibleCategories, v <:+: strip answer ∧
        renameEllipticCurves label = llmMark ++ v) ∨
      ((∀ v ∈ possibleCategories, ¬ v <:+: strip answer) ∧ label = strip answer) := by
  rcases absent_or_firstAt possibleCategories (strip answer) with habs | ⟨i, v, hf⟩
  · have hraw : parseAnswerV2 answer = .ok (strip answer) :=
      parseBlock_of_absent possibleCategories_searchable habs
    exact .inr ⟨habs, Except.ok.inj (hp.symm.trans hraw)⟩
  · have hmarked := Except.ok.inj (hp.symm.trans (parseAnswerV2_of_firstAt hf))
    refine .inl ⟨v, hf.mem, hf.occurs.isInfix, ?_⟩
    rw [hmarked, renameEllipticCurves_llmMark]

/-- **The one answer that scores.** Where the model is asked, the label is a bare category only for
the answer `ELLIPTIC_CURVES`, which is in no vocabulary: the parser hands it through and the scan
renames it. -/
theorem parseAnswerV2_scores_iff (hp : parseAnswerV2 answer = .ok label)
    (hc : c ∈ possibleCategories) :
    renameEllipticCurves label = c ↔
      c = txt "ElipticCurves" ∧ strip answer = txt "ELLIPTIC_CURVES" := by
  rcases parseAnswerV2_cases hp with ⟨v, hv, hocc, hlabel⟩ | ⟨habs, rfl⟩
  · -- a category was found: the label is marked, and the answer is not `ELLIPTIC_CURVES`
    constructor
    · rintro rfl
      rw [hlabel] at hc
      exact absurd hc (llmMark_append_not_mem v)
    · rintro ⟨-, hec⟩
      rw [hec] at hocc
      exact absurd hocc (ellipticCurves_absent v hv)
  · -- nothing was found: only the rename can make a category of the answer
    unfold renameEllipticCurves
    by_cases hec : strip answer = txt "ELLIPTIC_CURVES"
    · rw [if_pos hec]
      exact ⟨fun heq => ⟨heq.symm, hec⟩, fun h => h.1.symm⟩
    · rw [if_neg hec]
      constructor
      · intro heq
        rw [heq] at habs
        exact absurd List.infix_rfl (habs c hc)
      · exact fun h => absurd h.2 hec

/-! ## Every label has an origin -/

/-- The queries are answered from the collection: a retrieved category is a stored one. -/
def RetrievesFrom (w : World) (chroma : Chroma κ ε) (collection : κ) : Prop :=
  ∀ file text n result, w.query file text n = .ok result →
    ∀ row ∈ result.metadatas, ∀ x ∈ row, ∃ id sample,
      chroma.lookup collection id = some sample ∧ sample.category = x.category

theorem exists_metadata_of_retrieved {documents : QueryResult}
    (h : documents.retrieved = some categories) :
    ∃ row ∈ documents.metadatas, categories = row.map (·.category) := by
  match documents, h with
  | ⟨_ :: _, row :: _, _ :: _⟩, rfl => exact ⟨row, List.mem_cons_self, rfl⟩

/-- A retrieved category is that of a sample which no later call has replaced. -/
theorem exists_current_of_retrieved (hlawful : chroma.Lawful)
    (h : RetrievesFrom w chroma (uploads chroma sha256 us chroma.create))
    (hret : Retrieves w path text categories) (hc : c ∈ categories) :
    ∃ sample, Current chroma sha256 us sample ∧ sample.category = c := by
  obtain ⟨documents, hquery, hretrieved⟩ := hret.query
  obtain ⟨row, hrow, rfl⟩ := exists_metadata_of_retrieved hretrieved
  obtain ⟨x, hx, rfl⟩ := List.mem_map.mp hc
  obtain ⟨id, sample, hget, hcat⟩ := h path text 4 documents hquery row hrow x hx
  exact ⟨sample, current_of_lookup hlawful hget, hcat⟩

/-- **Every label of a scan has one of three origins**: the category of a sample that was uploaded
and not replaced since, a member of the vocabulary that is in the model's answer, or an answer in
which no member is. The answer is the one to the prompt that was sent for the file, which is sent
because the retrieved categories disagree. This holds for every pair that is yielded, also by a scan
that raises later. -/
theorem label_origin (w : World) (root : Path) (chroma : Chroma κ ε) (hlawful : chroma.Lawful)
    (sha256 : Text → Text) (us : List (Upload ε))
    (h : RetrievesFrom w chroma (uploads chroma sha256 us chroma.create)) (path : Path)
    (label : Text) (hy : (path, label) ∈ (scanFolder w root).outputs) :
    (∃ text categories sample, Retrieves w path text categories ∧ categories ≠ [] ∧
        (∀ x ∈ categories, x = sample.category) ∧ Current chroma sha256 us sample ∧
        label = renameEllipticCurves sample.category) ∨
      ∃ text categories answer, Retrieves w path text categories ∧ ¬ Agree categories ∧
        w.generate path (txt "llama3.1") (promptV2 text categories) = .ok (some answer) ∧
        ((∃ v ∈ possibleCategories, v <:+: strip answer ∧ label = llmMark ++ v) ∨
          ((∀ v ∈ possibleCategories, ¬ v <:+: strip answer) ∧
            label = renameEllipticCurves (strip answer))) := by
  obtain ⟨-, houtcome⟩ := of_mem_outputs hy
  cases houtcome with
  | @agree text categories c hret hne hall =>
      obtain ⟨x, hx⟩ := List.exists_mem_of_ne_nil _ hne
      obtain ⟨sample, hcurrent, hcat⟩ := exists_current_of_retrieved hlawful h hret hx
      have hsample : sample.category = c := hcat.trans (hall x hx)
      subst hsample
      exact .inl ⟨text, categories, sample, hret, hne, hall, hcurrent, rfl⟩
  | @answered text categories answer label hret hdis hgenerate hp =>
      refine .inr ⟨text, categories, answer, hret, hdis, hgenerate, ?_⟩
      rcases parseAnswerV2_cases hp with hmarked | ⟨habs, rfl⟩
      · exact .inl hmarked
      · exact .inr ⟨habs, rfl⟩

/-- `demoWorld` retrieves from a collection with one sample. -/
theorem demoWorld_retrievesFrom (answer : Text) :
    RetrievesFrom (demoWorld [['R', 'S', 'A']] answer) (dictCollection : Chroma _ Unit)
      (uploads dictCollection id [demoUpload ['R', 'S', 'A']] .empty) := by
  rintro file text n result ⟨⟩ row hrow x hx
  rw [List.mem_singleton.mp hrow] at hx
  rw [List.mem_singleton.mp hx]
  exact ⟨['x'], ⟨['R', 'S', 'A'], ['x']⟩, rfl, rfl⟩

theorem demoWorld_yields (answer : Text) :
    (['e', '/', 'R', 'S', 'A', '/', 'k'], ['R', 'S', 'A']) ∈
      (scanFolder (demoWorld [['R', 'S', 'A']] answer) ['e']).outputs :=
  List.mem_singleton_self _

/-- The one file of the demo tree: the model answers with nothing, so the label is a sample's. -/
theorem label_origin_demo :
    ∃ sample, Current dictCollection id [demoUpload ['R', 'S', 'A']] sample ∧
      ['R', 'S', 'A'] = renameEllipticCurves sample.category := by
  rcases label_origin _ ['e'] _ dictCollection_lawful id _ (demoWorld_retrievesFrom []) _ _
    (demoWorld_yields []) with ⟨_, _, sample, -, -, -, hcurrent, hlabel⟩ | ⟨_, _, answer, -, -, ha, h⟩
  · exact ⟨sample, hcurrent, hlabel⟩
  · cases ha
    rcases h with ⟨v, hv, -, heq⟩ | ⟨-, heq⟩
    · have hhead : some 'R' = some 'L' := congrArg List.head? heq
      exact absurd hhead (by decide)
    · exact absurd heq (by decide)

/-- **A store of one category**: if all samples that were not replaced have the category `c`, and
every query finds something, each file that is yielded has this label, up to the renaming, whatever
is in it. -/
theorem single_category_store (w : World) (root : Path) (chroma : Chroma κ ε)
    (hlawful : chroma.Lawful) (sha256 : Text → Text) (us : List (Upload ε)) (c : Text)
    (h : RetrievesFrom w chroma (uploads chroma sha256 us chroma.create))
    (hone : ∀ sample, Current chroma sha256 us sample → sample.category = c)
    (hfound : ∀ p text categories, Retrieves w p text categories → categories ≠ []) (path : Path)
    (label : Text) (hy : (path, label) ∈ (scanFolder w root).outputs) :
    label = renameEllipticCurves c := by
  have hall : ∀ {text categories}, Retrieves w path text categories → ∀ x ∈ categories, x = c := by
    intro text categories hret x hx
    obtain ⟨sample, hcurrent, rfl⟩ := exists_current_of_retrieved hlawful h hret hx
    exact hone sample hcurrent
  obtain ⟨-, houtcome⟩ := of_mem_outputs hy
  cases houtcome with
  | agree hret hne hsame =>
      obtain ⟨x, hx⟩ := List.exists_mem_of_ne_nil _ hne
      rw [← hsame x hx, hall hret x hx]
  | answered hret hdis _ _ =>
      -- the model is not asked
      refine absurd ⟨hfound _ _ _ hret, fun x hx y hy => ?_⟩ hdis
      rw [hall hret x hx, hall hret y hy]

theorem single_category_store_demo :
    ∃ y ∈ (scanFolder (demoWorld [['R', 'S', 'A']] []) ['e']).outputs, y.2 = ['R', 'S', 'A'] := by
  have hone : ∀ sample, Current (dictCollection : Chroma _ Unit) id [demoUpload ['R', 'S', 'A']]
      sample → sample.category = ['R', 'S', 'A'] := by
    rintro sample ⟨before, after, heq, -⟩
    have hmem : sample ∈ succeeded (dictCollection : Chroma _ Unit) id
        [demoUpload ['R', 'S', 'A']] .empty := by
      rw [show Dict.empty = (dictCollection : Chroma _ Unit).create from rfl, heq]
      simp
    rw [List.mem_singleton.mp hmem]
    rfl
  have hfound : ∀ p text categories,
      Retrieves (demoWorld [['R', 'S', 'A']] []) p text categories → categories ≠ [] := by
    rintro p text categories ⟨-, documents, hquery, hretrieved⟩
    cases hquery
    cases hretrieved
    exact List.cons_ne_nil _ _
  exact ⟨_, demoWorld_yields [], single_category_store _ ['e'] _ dictCollection_lawful id _ _
    (demoWorld_retrievesFrom []) hone hfound _ _ (demoWorld_yields [])⟩

/-! ## The score of a tree -/

/-- The file is labelled with `c`: the retrieved categories agree on it, or they do not and the
model gives the one answer that scores. -/
def scores (w : World) (c : Text) (path : Path) : Bool :=
  match w.read path with
  | .error _ => false
  | .ok text =>
      match (w.query path text 4).toOption.bind QueryResult.retrieved with
      | none => false
      | some categories =>
          if Agree categories then categories.all fun x => renameEllipticCurves x = c
          else decide (c = txt "ElipticCurves") &&
            match w.generate path (txt "llama3.1") (promptV2 text categories) with
            | .ok (some answer) => decide (strip answer = txt "ELLIPTIC_CURVES")
            | _ => false

theorem scores_of_agree (h : Retrieves w path text categories) (hne : categories ≠ [])
    (hall : ∀ x ∈ categories, x = label) :
    scores w c path = decide (renameEllipticCurves label = c) := by
  obtain ⟨documents, hquery, hretrieved⟩ := h.query
  have hagree : Agree categories := ⟨hne, fun x hx y hy => (hall x hx).trans (hall y hy).symm⟩
  unfold scores
  simp only [h.read, hquery, Except.toOption, Option.bind_some, hretrieved, if_pos hagree]
  rw [Bool.eq_iff_iff, List.all_eq_true, decide_eq_true_iff]
  constructor
  · intro heq
    obtain ⟨x, hx⟩ := List.exists_mem_of_ne_nil _ hne
    rw [← hall x hx]
    exact of_decide_eq_true (heq x hx)
  · intro heq x hx
    rw [hall x hx]
    exact decide_eq_true heq

theorem scores_of_answered (h : Retrieves w path text categories) (hdis : ¬ Agree categories)
    (hgenerate : w.generate path (txt "llama3.1") (promptV2 text categories) = .ok (some answer)) :
    scores w c path =
      decide (c = txt "ElipticCurves" ∧ strip answer = txt "ELLIPTIC_CURVES") := by
  obtain ⟨documents, hquery, hretrieved⟩ := h.query
  unfold scores
  simp only [h.read, hquery, Except.toOption, Option.bind_some, hretrieved, if_neg hdis, hgenerate,
    Bool.decide_and]

/-- A file that is labelled is counted if it scores its directory. -/
theorem isRight_labelled (hc : c ∈ possibleCategories) (hdir : ParentNamed c path)
    (hcalls : CallsReturn w path) : isRight (labelled w path) = scores w c path := by
  obtain ⟨label, hlabel⟩ := hcalls.category
  have hright : isRight (labelled w path) = decide (label = c) := by
    obtain ⟨hslash, hdot⟩ := possibleCategories_no_separator _ hc
    simp [isRight, labelled, categoryOr, getRightCategory_of_parentNamed hdir hslash hdot, hlabel,
      eq_comm]
  rw [hright]
  cases fileOutcome_iff.mpr hlabel with
  | agree hret hne hall => rw [scores_of_agree hret hne hall]
  | answered hret hdis hgenerate hp =>
      rw [scores_of_answered hret hdis hgenerate]
      exact decide_eq_decide.mpr (parseAnswerV2_scores_iff hp hc)

/-- **What `correct` counts.** In a tree whose files are in folders named after categories, a
finished evaluation counts the files that score the name of their folder. -/
theorem correct_eq_count (w : World) (root : Path) (hroot : root ≠ []) (r : Report)
    (h : evaluateFolder w root = .ok r) (folder : Path → Text)
    (hdirs : ∀ p ∈ filesBelow w.directory root,
      folder p ∈ possibleCategories ∧ ParentNamed (folder p) p) :
    r.correct = (filesBelow w.directory root).countP fun p => scores w (folder p) p := by
  obtain ⟨-, hok, hreport⟩ := of_evaluateFolder_ok hroot h
  rw [hreport.correct, List.countP_map]
  apply List.countP_congr
  intro p hp
  obtain ⟨hc, hparent⟩ := hdirs p hp
  show isRight (labelled w p) = true ↔ _
  rw [isRight_labelled hc hparent (hok p hp)]

/-- The demo file scores. -/
theorem correct_eq_count_demo :
    ∃ r, evaluateFolder (demoWorld [['R', 'S', 'A']] []) ['e'] = .ok r ∧ r.correct = 1 := by
  have hc : ['R', 'S', 'A'] ∈ possibleCategories := by
    rw [possibleCategories_eq]
    decide
  have hfiles : filesBelow (demoWorld [['R', 'S', 'A']] []).directory ['e'] =
      [render ['e'] demoPath] := rfl
  have hne : filesBelow (demoWorld [['R', 'S', 'A']] []).directory ['e'] ≠ [] :=
    List.cons_ne_nil _ _
  obtain ⟨r, hr, -⟩ := evaluateFolder_of_ok (by decide) hne fun _ _ => demoWorld_callsReturn _ _ _
  have hcount := correct_eq_count _ ['e'] (by decide) r hr (fun _ => ['R', 'S', 'A']) fun p hp => by
    rw [hfiles] at hp
    rw [List.mem_singleton.mp hp]
    exact ⟨hc, demoPath_parentNamed⟩
  exact ⟨r, hr, hcount⟩

end Labels

end CryptoScan
