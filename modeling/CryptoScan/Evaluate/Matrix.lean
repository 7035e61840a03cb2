import CryptoScan.Python.Dict
import CryptoScan.Evaluate
import Mathlib.Algebra.BigOperators.Group.List.Basic
import Mathlib.Algebra.Ring.Nat

/-!
# `evaluate.py`: the confusion matrix

After the classification loop two nested loops build `matrix`, a dictionary of dictionaries, from
`rights` and `wrongs`. The two checks of the inner loop body (`not in`, then `+= 1`) together count,
from 0, so the nested loops are a fold that assigns one row at a time (`confusionMatrix_eq`).

* **Cells** (`confusionMatrix_entry`) — for *any* two lists a cell holds the number of pairs of a right
  and a wrong one with the same path, the right one's label and the wrong one's actual category.
* **Rows and columns** (`confusionMatrix_table`) — the rows are the labels of the right files and the
  columns of *every* row are the actual categories of the wrong files, both as they come up first.

A file is either right or wrong, so with distinct paths there is no pair to count, and all cells are 0
(`confusionMatrix_zero`). The matrix counts the predictions only if there are none
(`matrix_counts_iff_nil`).
-/

namespace CryptoScan

open Python

/-! ## The nested loops -/

abbrev Matrix := Dict Text (Dict Text Nat)

/-- `if a not in matrix[r]: matrix[r][a] = 0`. -/
def ensureColumn (matrix : Matrix) (r a : Text) : Except Exc Matrix := do
  let row ← matrix.getItem r
  pure (if row.contains a then matrix else matrix.set r (row.set a 0))

/-- `matrix[r][a] += 1`. -/
def increment (matrix : Matrix) (r a : Text) : Except Exc Matrix := do
  let row ← matrix.getItem r
  let n ← row.getItem a
  pure (matrix.set r (row.set a (n + 1)))

/-- The inner loop body. -/
def countWrong (right : Path × Text) (matrix : Matrix) (wrong : Path × Text × Text) :
    Except Exc Matrix := do
  let matrix ← ensureColumn matrix right.2 wrong.2.2
  if wrong.1 = right.1 then increment matrix right.2 wrong.2.2 else pure matrix

/-- The outer loop body. -/
def countRight (wrongs : List (Path × Text × Text)) (matrix : Matrix) (right : Path × Text) :
    Except Exc Matrix :=
  wrongs.foldlM (countWrong right)
    (if matrix.contains right.2 then matrix else matrix.set right.2 .empty)

def confusionMatrix (rights : List (Path × Text)) (wrongs : List (Path × Text × Text)) :
    Except Exc Matrix :=
  rights.foldlM (countRight wrongs) .empty

/-! ## The loops without exceptions -/

section Loops

variable {matrix : Matrix} {row : Dict Text Nat} {right : Path × Text} {r a : Text} {n : Nat}

theorem ensureColumn_eq (h : matrix.get? r = some row) (a : Text) :
    ensureColumn matrix r a = .ok (matrix.set r (row.bump a 0)) := by
  unfold ensureColumn Dict.bump
  rw [Dict.getItem_of_get? h, ok_bind]
  cases ha : row.get? a with
  | some n =>
      have hc : row.contains a = true := by simp [Dict.contains, ha]
      have hsame : row.set a ((some n).getD 0 + 0) = row := Dict.set_of_get? ha
      rw [hc, hsame, Dict.set_of_get? h]
      rfl
  | none =>
      have hc : row.contains a = false := by simp [Dict.contains, ha]
      rw [hc]
      rfl

theorem increment_eq (h : matrix.get? r = some row) (ha : row.get? a = some n) :
    increment matrix r a = .ok (matrix.set r (row.bump a 1)) := by
  unfold increment Dict.bump
  rw [Dict.getItem_of_get? h, ok_bind, Dict.getItem_of_get? ha, ok_bind, ha]
  rfl

/-- What a wrong file adds to its column in the row of a right one. -/
def joined (right : Path × Text) (wrong : Path × Text × Text) : Nat :=
  if wrong.1 = right.1 then 1 else 0

theorem countWrong_eq (h : matrix.get? right.2 = some row) (wrong : Path × Text × Text) :
    countWrong right matrix wrong =
      .ok (matrix.set right.2 (row.bump wrong.2.2 (joined right wrong))) := by
  unfold countWrong joined
  rw [ensureColumn_eq h, ok_bind]
  split
  · have hrow : (matrix.set right.2 (row.bump wrong.2.2 0)).get? right.2 =
        some (row.bump wrong.2.2 0) := Dict.get?_set_self ..
    have hcell : (row.bump wrong.2.2 0).get? wrong.2.2 = some ((row.get? wrong.2.2).getD 0 + 0) :=
      Dict.get?_set_self ..
    rw [increment_eq hrow hcell, Dict.set_set, Dict.bump_bump]
  · rfl

/-- The row of a right file after the inner loop. -/
def countRow (wrongs : List (Path × Text × Text)) (right : Path × Text) (row : Dict Text Nat) :
    Dict Text Nat :=
  wrongs.foldl (fun row wrong => row.bump wrong.2.2 (joined right wrong)) row

/-- The inner loop rewrites one row. -/
theorem foldlM_countWrong_eq (wrongs : List (Path × Text × Text))
    (h : matrix.get? right.2 = some row) :
    wrongs.foldlM (countWrong right) matrix =
      .ok (matrix.set right.2 (countRow wrongs right row)) := by
  induction wrongs generalizing matrix row with
  | nil =>
      rw [List.foldlM_nil, countRow, List.foldl_nil, Dict.set_of_get? h]
      rfl
  | cons wrong wrongs ih =>
      rw [List.foldlM_cons, countWrong_eq h, ok_bind, ih (Dict.get?_set_self ..), Dict.set_set]
      rfl

/-- The matrix after one round of the outer loop. -/
def addRight (wrongs : List (Path × Text × Text)) (matrix : Matrix) (right : Path × Text) : Matrix :=
  matrix.set right.2 (countRow wrongs right ((matrix.get? right.2).getD .empty))

theorem countRight_eq (wrongs : List (Path × Text × Text)) (matrix : Matrix) (right : Path × Text) :
    countRight wrongs matrix right = .ok (addRight wrongs matrix right) := by
  unfold countRight addRight
  cases h : matrix.get? right.2 with
  | some row =>
      have hc : matrix.contains right.2 = true := by simp [Dict.contains, h]
      rw [hc]
      exact foldlM_countWrong_eq wrongs h
  | none =>
      have hc : matrix.contains right.2 = false := by simp [Dict.contains, h]
      have hnew : (matrix.set right.2 .empty).get? right.2 = some .empty := Dict.get?_set_self ..
      rw [hc]
      show wrongs.foldlM (countWrong right) (matrix.set right.2 .empty) = _
      rw [foldlM_countWrong_eq wrongs hnew, Dict.set_set]
      rfl

/-- The nested loops never raise, and are a fold. -/
theorem confusionMatrix_eq (rights : List (Path × Text)) (wrongs : List (Path × Text × Text)) :
    confusionMatrix rights wrongs = .ok (rights.foldl (addRight wrongs) .empty) := by
  have hrun : ∀ (rights : List (Path × Text)) (matrix : Matrix),
      rights.foldlM (countRight wrongs) matrix = .ok (rights.foldl (addRight wrongs) matrix) := by
    intro rights
    induction rights with
    | nil => exact fun _ => rfl
    | cons right rights ih =>
        intro matrix
        rw [List.foldlM_cons, countRight_eq, ok_bind, ih]
        rfl
  exact hrun rights .empty

end Loops

/-! ## What a cell holds -/

section Cells

variable {matrix : Matrix} {row : Dict Text Nat} {r : Text}

/-- `matrix[p][a]`, read as 0 when absent. -/
def entry (matrix : Matrix) (p a : Text) : Nat :=
  match matrix.get? p with
  | some row => (row.get? a).getD 0
  | none => 0

theorem entry_of_get? (h : matrix.get? r = some row) (a : Text) :
    entry matrix r a = (row.get? a).getD 0 := by
  unfold entry
  rw [h]

theorem entry_eq_getD (matrix : Matrix) (r a : Text) :
    entry matrix r a = (((matrix.get? r).getD .empty).get? a).getD 0 := by
  unfold entry
  cases matrix.get? r <;> rfl

/-- The pair of loop variables adds to this cell: same path, this label, this actual category. -/
def Joins (right : Path × Text) (p a : Text) (wrong : Path × Text × Text) : Prop :=
  wrong.1 = right.1 ∧ p = right.2 ∧ a = wrong.2.2

instance (right : Path × Text) (p a : Text) : DecidablePred (Joins right p a) :=
  fun _ => inferInstanceAs (Decidable (_ ∧ _ ∧ _))

/-- The cells of a row after the inner loop. -/
theorem getD_countRow (wrongs : List (Path × Text × Text)) (right : Path × Text)
    (row : Dict Text Nat) (a : Text) :
    ((countRow wrongs right row).get? a).getD 0 =
      (row.get? a).getD 0 + wrongs.countP (Joins right right.2 a) := by
  induction wrongs generalizing row with
  | nil => rfl
  | cons wrong wrongs ih =>
      have hcell : ((row.bump wrong.2.2 (joined right wrong)).get? a).getD 0 =
          (row.get? a).getD 0 + if Joins right right.2 a wrong then 1 else 0 := by
        unfold Dict.bump joined
        rw [Dict.get?_set]
        by_cases ha : a = wrong.2.2
        · simp [Joins, ha]
        · simp [Joins, ha]
      show ((countRow wrongs right (row.bump wrong.2.2 (joined right wrong))).get? a).getD 0 = _
      rw [ih, hcell, List.countP_cons, Nat.add_assoc, Nat.add_comm (ite _ _ _)]
      simp only [decide_eq_true_eq]

/-- The cells of the matrix after one round of the outer loop. -/
theorem entry_addRight (wrongs : List (Path × Text × Text)) (matrix : Matrix) (right : Path × Text)
    (p a : Text) :
    entry (addRight wrongs matrix right) p a =
      entry matrix p a + wrongs.countP (Joins right p a) := by
  by_cases hp : p = right.2
  · have hrow : (addRight wrongs matrix right).get? p =
        some (countRow wrongs right ((matrix.get? p).getD .empty)) := by
      rw [hp]
      exact Dict.get?_set_self ..
    rw [entry_of_get? hrow, getD_countRow, entry_eq_getD, hp]
  · have hrow : (addRight wrongs matrix right).get? p = matrix.get? p := Dict.get?_set_ne _ hp _
    have hnone : wrongs.countP (Joins right p a) = 0 := by
      rw [List.countP_eq_zero]
      intro wrong _ hjoins
      exact hp (of_decide_eq_true hjoins).2.1
    unfold entry
    rw [hrow, hnone, Nat.add_zero]

/-- The pairs of a right and a wrong one that the loops join into a cell. -/
def joinCount (rights : List (Path × Text)) (wrongs : List (Path × Text × Text)) (p a : Text) :
    Nat :=
  (rights.map fun right => wrongs.countP (Joins right p a)).sum

theorem entry_foldl_addRight (rights : List (Path × Text)) (wrongs : List (Path × Text × Text))
    (matrix : Matrix) (p a : Text) :
    entry (rights.foldl (addRight wrongs) matrix) p a =
      entry matrix p a + joinCount rights wrongs p a := by
  induction rights generalizing matrix with
  | nil => rfl
  | cons right rights ih =>
      rw [List.foldl_cons, ih, entry_addRight, Nat.add_assoc]
      rfl

/-- **What the nested loops compute**, for any two lists: they end, and a cell holds the number of
joined pairs. -/
theorem confusionMatrix_entry (rights : List (Path × Text)) (wrongs : List (Path × Text × Text)) :
    ∃ matrix, confusionMatrix rights wrongs = .ok matrix ∧
      ∀ p a, entry matrix p a = joinCount rights wrongs p a := by
  refine ⟨_, confusionMatrix_eq rights wrongs, fun p a => ?_⟩
  rw [entry_foldl_addRight]
  exact Nat.zero_add _

end Cells

/-! ## Rows and columns -/

/-- The actual categories of the wrong files, as they come up first. -/
def columns (wrongs : List (Path × Text × Text)) : List Text := firsts (wrongs.map (·.2.2))

theorem keys_countRow (wrongs : List (Path × Text × Text)) (right : Path × Text)
    (row : Dict Text Nat) :
    (countRow wrongs right row).keys = firsts (row.keys ++ wrongs.map (·.2.2)) :=
  Dict.keys_foldl_set (fun wrong : Path × Text × Text => wrong.2.2)
    (fun row wrong => (row.get? wrong.2.2).getD 0 + joined right wrong) wrongs row

/-- Every row has the same columns. -/
theorem keys_of_row (rights : List (Path × Text)) (wrongs : List (Path × Text × Text)) (r : Text)
    (row : Dict Text Nat) (h : (rights.foldl (addRight wrongs) .empty).get? r = some row) :
    row.keys = columns wrongs := by
  -- kept by each round: a row is new or has been through the same wrong files before
  have hrun : ∀ (rights : List (Path × Text)) (matrix : Matrix),
      (∀ r row, matrix.get? r = some row → row.keys = columns wrongs) →
      ∀ r row, (rights.foldl (addRight wrongs) matrix).get? r = some row →
        row.keys = columns wrongs := by
    intro rights
    induction rights with
    | nil => exact fun _ h => h
    | cons right rights ih =>
        intro matrix hm
        apply ih
        intro r row hr
        unfold addRight at hr
        rw [Dict.get?_set] at hr
        split at hr
        · cases hr
          rw [keys_countRow]
          cases hold : matrix.get? right.2 with
          | none => rfl
          | some old =>
              rw [Option.getD_some, hm _ _ hold, columns, firsts_append_left, firsts_append_self]
        · exact hm r row hr
  exact hrun rights .empty (fun r row h => by cases h) r row h

/-- The matrix as it is printed: the rows in order, each with its cells in order. -/
def table (matrix : Matrix) : List (Text × List (Text × Nat)) :=
  matrix.entries.map fun item => (item.1, item.2.entries)

/-- The matrix of the loops in closed form. -/
theorem table_foldl_addRight (rights : List (Path × Text)) (wrongs : List (Path × Text × Text)) :
    table (rights.foldl (addRight wrongs) .empty) = (firsts (rights.map Prod.snd)).map fun r =>
      (r, (columns wrongs).map fun a => (a, joinCount rights wrongs r a)) := by
  have hkeys : (rights.foldl (addRight wrongs) .empty).keys = firsts (rights.map Prod.snd) :=
    Dict.keys_foldl_set Prod.snd (fun matrix right =>
      countRow wrongs right ((matrix.get? right.2).getD .empty)) rights .empty
  rw [← hkeys, Dict.keys, List.map_map, table]
  apply List.map_congr_left
  rintro ⟨r, row⟩ hitem
  have hrow := Dict.get?_of_mem _ hitem
  show (r, row.entries) = (r, (columns wrongs).map fun a => (a, joinCount rights wrongs r a))
  rw [row.entries_eq_map_keys 0, keys_of_row rights wrongs r row hrow]
  congr 2
  funext a
  rw [← entry_of_get? hrow, entry_foldl_addRight]
  exact congrArg (Prod.mk a) (Nat.zero_add _)

/-- **The matrix, for any two lists**: the nested loops end, and what is printed has a row for each
label of `rights` and in every row a cell for each actual category of `wrongs`, in the order in
which they come up; a cell holds the number of pairs with one path that the loops join there. -/
theorem confusionMatrix_table (rights : List (Path × Text)) (wrongs : List (Path × Text × Text)) :
    ∃ matrix, confusionMatrix rights wrongs = .ok matrix ∧
      table matrix = (firsts (rights.map Prod.snd)).map fun r =>
        (r, (columns wrongs).map fun a => (a, joinCount rights wrongs r a)) :=
  ⟨_, confusionMatrix_eq rights wrongs, table_foldl_addRight rights wrongs⟩

/-! ## Right and wrong files do not meet -/

section Predictions

variable {ys : List (Path × Text)}

/-- With distinct paths no path is right and wrong, so nothing is joined. -/
theorem joinCount_eq_zero (hnodup : (ys.map Prod.fst).Nodup) (p a : Text) :
    joinCount (ys.filter isRight) ((ys.filter (!isRight ·)).map wrongEntry) p a = 0 := by
  apply List.sum_eq_zero
  intro n hn
  obtain ⟨right, hright, rfl⟩ := List.mem_map.mp hn
  rw [List.countP_eq_zero]
  intro wrong hwrong hjoins
  obtain ⟨y, hy, rfl⟩ := List.mem_map.mp hwrong
  obtain ⟨hpath, -⟩ := of_decide_eq_true hjoins
  -- one path is one file, and it would be both right and wrong
  rw [List.mem_filter] at hright hy
  have hsame : y = right := List.inj_on_of_nodup_map hnodup hy.1 hright.1 hpath
  rw [hsame, hright.2] at hy
  cases hy.2

/-- **All cells of the matrix are 0**, whatever was predicted. -/
theorem confusionMatrix_zero (hnodup : (ys.map Prod.fst).Nodup) (hslash : ∀ y ∈ ys, '/' ∈ y.1) :
    ∃ matrix, confusionMatrix (tally ys).1.rights (tally ys).1.wrongs = .ok matrix ∧
      ∀ p a, entry matrix p a = 0 := by
  rw [tally_eq hslash]
  obtain ⟨matrix, hm, he⟩ := confusionMatrix_entry (ys.filter isRight)
    ((ys.filter (!isRight ·)).map wrongEntry)
  refine ⟨matrix, hm, ?_⟩
  intro p a
  rw [he]
  exact joinCount_eq_zero hnodup p a

/-- The files with this label and this actual category. -/
def predictionCount (ys : List (Path × Text)) (p a : Text) : Nat :=
  ys.countP fun y => decide (y.2 = p ∧ getRightCategoryFromFileName y.1 = .ok a)

/-- All cells that are there. -/
def cellSum (matrix : Matrix) : Nat :=
  (matrix.entries.map fun item => (item.2.entries.map Prod.snd).sum).sum

/-- The cells `matrix[k][k]`. -/
def diagonalSum (matrix : Matrix) : Nat :=
  (matrix.entries.map fun item => entry matrix item.1 item.1).sum

/-- What the matrix is for. -/
def CountsPredictions (ys : List (Path × Text)) : Prop :=
  (tally ys).2 = .ok () ∧
    ∃ matrix, confusionMatrix (tally ys).1.rights (tally ys).1.wrongs = .ok matrix ∧
      (∀ p a, entry matrix p a = predictionCount ys p a) ∧
      cellSum matrix = (tally ys).1.total ∧
      diagonalSum matrix = (tally ys).1.correct

theorem predictionCount_pos {y : Path × Text} (hy : y ∈ ys) (hslash : '/' ∈ y.1) :
    ∃ a, 0 < predictionCount ys y.2 a := by
  obtain ⟨a, ha⟩ := getRightCategory_ok hslash
  exact ⟨a, List.countP_pos_iff.mpr ⟨y, hy, decide_eq_true ⟨rfl, ha⟩⟩⟩

/-- **The matrix counts the predictions iff there are none.** -/
theorem matrix_counts_iff_nil (ys : List (Path × Text)) (hnodup : (ys.map Prod.fst).Nodup)
    (hslash : ∀ y ∈ ys, '/' ∈ y.1) : CountsPredictions ys ↔ ys = [] := by
  constructor
  · rintro ⟨-, matrix, hm, hentry, -, -⟩
    obtain ⟨matrix', hm', hzero⟩ := confusionMatrix_zero hnodup hslash
    rw [hm] at hm'
    cases hm'
    cases ys with
    | nil => rfl
    | cons y ys =>
        -- the first file is a prediction, but its cell is 0
        obtain ⟨a, hpos⟩ := predictionCount_pos List.mem_cons_self (hslash y List.mem_cons_self)
        rw [← hentry, hzero] at hpos
        exact absurd hpos (Nat.lt_irrefl 0)
  · rintro rfl
    exact ⟨rfl, .empty, rfl, fun _ _ => rfl, rfl, rfl⟩

theorem matrix_counts_iff_nil_demo :
    CountsPredictions [] ∧
      ¬ CountsPredictions [(['e', '/', 'R', 'S', 'A', '/', 'k'], ['R', 'S', 'A'])] := by
  refine ⟨(matrix_counts_iff_nil [] (by decide) (by decide)).mpr rfl, ?_⟩
  rw [matrix_counts_iff_nil _ (by decide) (by decide)]
  decide

/-- A scan yields one file, rightly labelled. The matrix has a row for it, but no cell. -/
theorem right_prediction_not_in_matrix :
    (scanFolder (demoWorld [['R', 'S', 'A']] []) ['e']).outputs =
        [(['e', '/', 'R', 'S', 'A', '/', 'k'], ['R', 'S', 'A'])] ∧
      tally [(['e', '/', 'R', 'S', 'A', '/', 'k'], ['R', 'S', 'A'])] =
        (⟨1, 1, [], [(['e', '/', 'R', 'S', 'A', '/', 'k'], ['R', 'S', 'A'])]⟩, .ok ()) ∧
      predictionCount [(['e', '/', 'R', 'S', 'A', '/', 'k'], ['R', 'S', 'A'])]
        ['R', 'S', 'A'] ['R', 'S', 'A'] = 1 ∧
      ∃ matrix, confusionMatrix [(['e', '/', 'R', 'S', 'A', '/', 'k'], ['R', 'S', 'A'])] [] =
          .ok matrix ∧
        entry matrix ['R', 'S', 'A'] ['R', 'S', 'A'] = 0 ∧ cellSum matrix = 0 ∧
        diagonalSum matrix = 0 := by
  refine ⟨?_, by decide, by decide, _, rfl, by decide, by decide, by decide⟩
  have hlabel : categoryOfFile (demoWorld [['R', 'S', 'A']] []) (render ['e'] demoPath) =
      .ok (renameEllipticCurves ['R', 'S', 'A']) :=
    categoryOfFile_of_early (m := ⟨[⟨['R', 'S', 'A']⟩], [], []⟩) rfl (by decide)
  obtain ⟨-, hout⟩ := scanFolder_spec (w := demoWorld [['R', 'S', 'A']] []) (d := demoDir) rfl
    fun p _ => demoWorld_callsReturn _ _ (render ['e'] p)
  rw [hout]
  show [labelled _ (render ['e'] demoPath)] = _
  unfold labelled categoryOr
  rw [hlabel]
  rfl

end Predictions

end CryptoScan
