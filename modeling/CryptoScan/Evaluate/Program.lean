import CryptoScan.Python.Division
import CryptoScan.Scan.Program
import CryptoScan.Evaluate.Matrix

/-!
# `evaluate.py` as a program

The program prints what the two loops have left, unless there was no file: the accuracy divides by
their number.

* **The outcome** (`evaluateMain_outcome`) — for every world: the exception of the first file whose
  calls raise; without files a division by zero; otherwise the report, with everything in it known.
* **Order** (`report_order_independent`) — a file system lists a directory in any order, and the
  model is asked for some files only. Two worlds with the same files, the same retrieved samples and
  the same answers where the model is asked give the same score, and the same lists up to order.
* **From the output** (`evaluation_of_stdout`) — the text that `run.py` prints determines the
  outcome.
* **What is expected** (`expected_category`) — the name of the folder that the file is in, up to its
  first dot, however deep the folder is and however the root is written.
-/

namespace CryptoScan

open Python

/-! ## The program -/

/-- What the program prints. -/
structure Report where
  rows : List (Text × Dict Text Nat)
  total : Nat
  correct : Nat
  accuracy : PyFloat
  wrongs : List (Path × Text × Text)

/-- `correct/total`. -/
def accuracy (s : Tally) : Except Exc PyFloat := trueDiv s.correct s.total

def report (s : Tally) : Except Exc Report := do
  let matrix ← confusionMatrix s.rights s.wrongs
  let acc ← accuracy s
  pure ⟨matrix.entries, s.total, s.correct, acc, s.wrongs⟩

/-- The program, for any folder. -/
def evaluateFolder (w : World) (folder : Path) : Except Exc Report :=
  match evaluate w folder with
  | (s, .ok _) => report s
  | (_, .error e) => .error e

/-- The program: `folder = 'examples'`. -/
def evaluateMain (w : World) : Except Exc Report := evaluateFolder w (txt "examples")

variable {w w' : World} {root : Path}

/-! ## The report on a scan -/

section Reports

variable {ys ys' : List (Path × Text)} {r r' : Report}

/-- What a report on these labelled files says. The accuracy is the float nearest to the quotient;
the matrix has a row for each label of a right file, a column for each actual category of a wrong
one, and all its cells are 0. -/
structure ReportsOn (ys : List (Path × Text)) (r : Report) : Prop where
  total : r.total = ys.length
  correct : r.correct = ys.countP isRight
  accuracy : r.accuracy = .finite (toBinary64 (r.correct / r.total))
  nearest : NearestBinary64 (r.correct / r.total) (toBinary64 (r.correct / r.total))
  wrongs : r.wrongs = (ys.filter (!isRight ·)).map wrongEntry
  rows : r.rows.map (fun item => (item.1, item.2.entries)) =
    (firsts ((ys.filter isRight).map Prod.snd)).map fun label =>
      (label, (firsts ((ys.filter (!isRight ·)).map fun y => actualCategory y.1)).map fun a => (a, 0))

/-- The matrix of distinct files: all cells are 0. -/
theorem table_scored (hnodup : (ys.map Prod.fst).Nodup) :
    ∃ matrix, confusionMatrix (scored ys).rights (scored ys).wrongs = .ok matrix ∧
      table matrix = (firsts ((ys.filter isRight).map Prod.snd)).map fun label =>
        (label, (firsts ((ys.filter (!isRight ·)).map fun y => actualCategory y.1)).map
          fun a => (a, 0)) := by
  refine ⟨_, confusionMatrix_eq _ _, ?_⟩
  have hzero := joinCount_eq_zero hnodup
  rw [table_foldl_addRight, columns]
  simp only [scored, hzero, List.map_map]
  rfl

theorem correct_le_total (ys : List (Path × Text)) : (scored ys).correct ≤ (scored ys).total :=
  List.length_filter_le isRight ys

/-- With files there is a report, and it is on them. -/
theorem report_scored (hnodup : (ys.map Prod.fst).Nodup) (hne : ys ≠ []) :
    ∃ r, report (scored ys) = .ok r ∧ ReportsOn ys r := by
  obtain ⟨matrix, hm, htable⟩ := table_scored hnodup
  have hpos : (scored ys).total ≠ 0 := (List.length_pos_iff.mpr hne).ne'
  unfold report accuracy
  rw [hm, ok_bind, trueDiv_of_le hpos (correct_le_total ys), ok_bind]
  refine ⟨_, rfl, rfl, ?_, rfl, toBinary64_nearest (by positivity), rfl, htable⟩
  exact List.countP_eq_length_filter.symm

theorem report_scored_nil :
    report (scored []) = .error (.zeroDivisionError (txt "division by zero")) := rfl

/-- The labels of the rows. -/
theorem ReportsOn.labels (h : ReportsOn ys r) :
    r.rows.map Prod.fst = firsts ((ys.filter isRight).map Prod.snd) := by
  have hrows := congrArg (List.map Prod.fst) h.rows
  rw [List.map_map, List.map_map] at hrows
  exact hrows.trans (List.map_id _)

/-- The cells of any row. -/
theorem ReportsOn.cells (h : ReportsOn ys r) {item : Text × Dict Text Nat} (hitem : item ∈ r.rows) :
    item.2.entries =
      (firsts ((ys.filter (!isRight ·)).map fun y => actualCategory y.1)).map fun a => (a, 0) := by
  have hmem : (item.1, item.2.entries) ∈ r.rows.map fun item => (item.1, item.2.entries) :=
    List.mem_map_of_mem hitem
  rw [h.rows] at hmem
  obtain ⟨label, -, heq⟩ := List.mem_map.mp hmem
  exact (Prod.mk.inj heq).2.symm

/-- Two reports on the same files in different orders. -/
theorem ReportsOn.perm (h : ReportsOn ys r) (h' : ReportsOn ys' r') (hperm : ys'.Perm ys) :
    r'.total = r.total ∧ r'.correct = r.correct ∧ r'.accuracy = r.accuracy ∧
      r'.wrongs.Perm r.wrongs ∧ (r'.rows.map Prod.fst).Perm (r.rows.map Prod.fst) ∧
      ∀ item' ∈ r'.rows, ∀ item ∈ r.rows, item'.2.entries.Perm item.2.entries := by
  have htotal : r'.total = r.total := by rw [h.total, h'.total, hperm.length_eq]
  have hcorrect : r'.correct = r.correct := by rw [h.correct, h'.correct, hperm.countP_eq]
  refine ⟨htotal, hcorrect, ?_, ?_, ?_, ?_⟩
  · rw [h.accuracy, h'.accuracy, htotal, hcorrect]
  · rw [h.wrongs, h'.wrongs]
    exact (hperm.filter _).map _
  · rw [h.labels, h'.labels]
    exact firsts_perm ((hperm.filter _).map _)
  · intro item' hitem' item hitem
    rw [h.cells hitem, h'.cells hitem']
    exact (firsts_perm ((hperm.filter _).map _)).map _

end Reports

/-! ## The outcome of a run -/

section Outcome

variable {r : Report}

/-- A run ends as its scan does, or it reports on all files. -/
theorem evaluateFolder_eq (w : World) (hroot : root ≠ []) :
    evaluateFolder w root =
      match (scanFolder w root).result with
      | .ok _ => report (scored (scanFolder w root).outputs)
      | .error e => .error e := by
  unfold evaluateFolder
  rw [evaluate_eq_scored w hroot]
  cases (scanFolder w root).result <;> rfl

/-- **What `evaluate.py` does.** It ends with the exception of the first file, in the order of the
walk, for which the read, the query or the model raises, or whose replies lack what is taken from
them; without any file, with a division by zero; and otherwise with a report on all files, each with
the label that its answers give. -/
theorem evaluateMain_outcome (w : World) :
    ∃ (done : List (Path × Text)) (rest : List Path),
      filesBelow w.directory (txt "examples") = done.map Prod.fst ++ rest ∧
      (∀ y ∈ done, CallsReturn w y.1 ∧ FileOutcome w y.1 (.ok y.2)) ∧
      match rest with
      | p :: _ => ∃ e, FileOutcome w p (.error e) ∧ evaluateMain w = .error e
      | [] =>
          (done = [] → evaluateMain w = .error (.zeroDivisionError (txt "division by zero"))) ∧
          (done ≠ [] → ∃ r, evaluateMain w = .ok r ∧ ReportsOn done r) := by
  have hroot : txt "examples" ≠ [] := List.cons_ne_nil _ _
  obtain ⟨done, rest, hsplit, hdone, hout, hrest⟩ := scan_split w (txt "examples")
  have hrun := evaluateFolder_eq w hroot
  refine ⟨done, rest, hsplit, fun y hy => ⟨(hdone y hy).callsReturn, hdone y hy⟩, ?_⟩
  unfold evaluateMain
  cases rest with
  | cons p rest =>
      obtain ⟨e, he, hresult⟩ := hrest
      rw [hresult] at hrun
      exact ⟨e, he, hrun⟩
  | nil =>
      rw [hrest, hout] at hrun
      have hnodup : (done.map Prod.fst).Nodup := by
        have hall := filesBelow_nodup w.directory (txt "examples")
        rwa [hsplit, List.append_nil] at hall
      rw [hrun]
      refine ⟨?_, report_scored hnodup⟩
      rintro rfl
      exact report_scored_nil

theorem labelled_nodup (w : World) (root : Path) :
    (((filesBelow w.directory root).map (labelled w)).map Prod.fst).Nodup := by
  rw [map_fst_labelled]
  exact filesBelow_nodup w.directory root

/-- A run whose calls return reports on all files. -/
theorem evaluateFolder_of_ok (hroot : root ≠ []) (hne : filesBelow w.directory root ≠ [])
    (hok : ∀ p ∈ filesBelow w.directory root, CallsReturn w p) :
    ∃ r, evaluateFolder w root = .ok r ∧
      ReportsOn ((filesBelow w.directory root).map (labelled w)) r := by
  obtain ⟨hout, hresult⟩ := scanFolder_of_ok hok
  rw [evaluateFolder_eq w hroot, hresult, hout]
  exact report_scored (labelled_nodup w root) (by simpa using hne)

/-- A run that reports has seen all files, and their calls have returned. -/
theorem of_evaluateFolder_ok (hroot : root ≠ []) (h : evaluateFolder w root = .ok r) :
    filesBelow w.directory root ≠ [] ∧ (∀ p ∈ filesBelow w.directory root, CallsReturn w p) ∧
      ReportsOn ((filesBelow w.directory root).map (labelled w)) r := by
  obtain ⟨done, rest, hsplit, hdone, hout, hrest⟩ := scan_split w root
  have hrun := evaluateFolder_eq w hroot
  rw [h] at hrun
  cases rest with
  | cons p rest =>
      obtain ⟨e, -, hresult⟩ := hrest
      rw [hresult] at hrun
      cases hrun
  | nil =>
      rw [hrest, hout] at hrun
      rw [List.append_nil] at hsplit
      have hok : ∀ p ∈ filesBelow w.directory root, CallsReturn w p := by
        intro p hp
        rw [hsplit] at hp
        obtain ⟨y, hy, rfl⟩ := List.mem_map.mp hp
        exact (hdone y hy).callsReturn
      have hne : filesBelow w.directory root ≠ [] := by
        intro hnil
        rw [hnil] at hsplit
        rw [List.map_eq_nil_iff.mp hsplit.symm, report_scored_nil] at hrun
        cases hrun
      obtain ⟨r', hr', hreport⟩ := evaluateFolder_of_ok hroot hne hok
      rw [h] at hr'
      cases hr'
      exact ⟨hne, hok, hreport⟩

end Outcome

/-! ## The order of the files, and the answers that matter -/

section Order

/-- **The score does not depend on the order in which files are listed**, nor on anything else than
the answers for these files. If an evaluation finishes in one world, it finishes in every world with
the same files and the same answers: with the same counts and the same accuracy, the same wrong
files up to order, and a matrix with the same rows and columns up to order. -/
theorem report_order_independent (w w' : World) (root : Path) (hroot : root ≠ [])
    (hfiles : ∀ p, p ∈ filesBelow w'.directory root ↔ p ∈ filesBelow w.directory root)
    (hsame : ∀ p ∈ filesBelow w.directory root, SameAnswers w w' p) (r : Report)
    (h : evaluateFolder w root = .ok r) :
    ∃ r', evaluateFolder w' root = .ok r' ∧ r'.total = r.total ∧ r'.correct = r.correct ∧
      r'.accuracy = r.accuracy ∧ r'.wrongs.Perm r.wrongs ∧
      (r'.rows.map Prod.fst).Perm (r.rows.map Prod.fst) ∧
      ∀ item' ∈ r'.rows, ∀ item ∈ r.rows, item'.2.entries.Perm item.2.entries := by
  obtain ⟨hne, hok, hreport⟩ := of_evaluateFolder_ok hroot h
  have hperm : (filesBelow w'.directory root).Perm (filesBelow w.directory root) :=
    (List.perm_ext_iff_of_nodup (filesBelow_nodup w'.directory root)
      (filesBelow_nodup w.directory root)).mpr hfiles
  have hne' : filesBelow w'.directory root ≠ [] :=
    fun hnil => hne (List.nil_perm.mp (hnil ▸ hperm))
  have hcat : ∀ p ∈ filesBelow w'.directory root, categoryOfFile w p = categoryOfFile w' p :=
    fun p hp => (hsame p ((hfiles p).mp hp)).categoryOfFile_eq
  have hok' : ∀ p ∈ filesBelow w'.directory root, CallsReturn w' p := by
    intro p hp
    obtain ⟨c, hc⟩ := (hok p ((hfiles p).mp hp)).category
    exact callsReturn_iff.mpr ⟨c, (hcat p hp).symm.trans hc⟩
  have hlabelled : (filesBelow w'.directory root).map (labelled w') =
      (filesBelow w'.directory root).map (labelled w) := by
    apply List.map_congr_left
    intro p hp
    unfold labelled categoryOr
    rw [hcat p hp]
  obtain ⟨r', hr', hreport'⟩ := evaluateFolder_of_ok hroot hne' hok'
  rw [hlabelled] at hreport'
  exact ⟨r', hr', hreport.perm hreport' (hperm.map _)⟩

/-- Two files at `e`. -/
def demoPair (first second : Name) (h : first ≠ second) : World :=
  { demoWorld [['R', 'S', 'A']] [] with
    directory := fun p =>
      if p = ['e'] then
        some ⟨.file first (.file second .nil), by simpa [Listing.WellFormed, Listing.names] using h⟩
      else none }

/-- One tree, listed in two orders. -/
theorem report_order_independent_demo :
    ∃ r r', evaluateFolder (demoPair demoFolder demoFile (by decide)) ['e'] = .ok r ∧
      evaluateFolder (demoPair demoFile demoFolder (by decide)) ['e'] = .ok r' ∧ r.total = 2 ∧
      r'.total = r.total ∧ r'.wrongs.Perm r.wrongs := by
  let w := demoPair demoFolder demoFile (by decide)
  have hok : ∀ p ∈ filesBelow w.directory ['e'], CallsReturn w p :=
    fun _ _ => callsReturn_iff.mpr ⟨['R', 'S', 'A'], rfl⟩
  have hne : filesBelow w.directory ['e'] ≠ [] := List.cons_ne_nil _ _
  obtain ⟨r, hr, hreport⟩ := evaluateFolder_of_ok (by decide) hne hok
  obtain ⟨r', hr', htotal, -, -, hwrongs, -⟩ :=
    report_order_independent w (demoPair demoFile demoFolder (by decide)) ['e'] (by decide)
      (fun _ => (List.Perm.swap _ _ []).mem_iff)
      (fun _ _ => ⟨rfl, fun _ => rfl, fun _ _ _ _ => rfl⟩) r hr
  exact ⟨r, r', hr, hr', hreport.total, htotal, hwrongs⟩

end Order

/-! ## The output of `run.py` -/

section Stdout

/-- **A score can be computed from the output of `run.py`.** If two runs write the same text and end
in the same way, the scans have yielded the same pairs, and the evaluations have the same outcome. -/
theorem evaluation_of_stdout (w w' : World) (root root' : Path) (prog prog' : Text)
    (h : ∀ y ∈ (scanFolder w root).outputs, Readable y)
    (h' : ∀ y ∈ (scanFolder w' root').outputs, Readable y)
    (hout : printed (runMain w [prog, root]).1 = printed (runMain w' [prog', root']).1)
    (hend : (runMain w [prog, root]).2 = (runMain w' [prog', root']).2) :
    (scanFolder w root).outputs = (scanFolder w' root').outputs ∧
      evaluateFolder w root = evaluateFolder w' root' := by
  have hpairs := stdout_determines w w' root root' prog prog' h h' hout
  refine ⟨hpairs, ?_⟩
  rw [runMain_eq, runMain_eq] at hend
  have hresult : (scanFolder w root).result = (scanFolder w' root').result := hend
  unfold evaluateFolder
  rw [evaluate_eq_tally, evaluate_eq_tally, hpairs, hresult]

/-- What the model would say makes no difference, if it is not asked. -/
theorem evaluation_of_stdout_demo :
    evaluateFolder (demoWorld [['R', 'S', 'A']] []) ['e'] =
      evaluateFolder (demoWorld [['R', 'S', 'A']] ['x']) ['e'] := by
  have hout : ∀ answer, (scanFolder (demoWorld [['R', 'S', 'A']] answer) ['e']).outputs =
      [(render ['e'] demoPath, ['R', 'S', 'A'])] := fun _ => rfl
  have hreadable : ∀ answer, ∀ y ∈ (scanFolder (demoWorld [['R', 'S', 'A']] answer) ['e']).outputs,
      Readable y := by
    intro answer y hy
    rw [hout] at hy
    rw [List.mem_singleton.mp hy]
    exact ⟨by decide, by decide, fun h => absurd h.length_le (by decide)⟩
  have hlines : ∀ answer, runMain (demoWorld [['R', 'S', 'A']] answer) [[], ['e']] =
      ([resultLine (render ['e'] demoPath, ['R', 'S', 'A'])], .ok ()) := by
    intro answer
    rw [runMain_eq, hout]
    rfl
  exact (evaluation_of_stdout _ _ ['e'] ['e'] [] [] (hreadable []) (hreadable ['x'])
    (by rw [hlines, hlines]) (by rw [hlines, hlines])).2

end Stdout

/-! ## The expected category -/

section Expected

/-- The part of a name before its first dot. -/
def stem (name : Text) : Text := name.takeWhile (· ≠ '.')

theorem item0_splitOn_dot (name : Text) : item0 (name.splitOn '.') = .ok (stem name) := by
  have hstem : '.' ∉ stem name := by
    intro hmem
    have hne := List.mem_takeWhile_imp hmem
    simp at hne
  have hcut : stem name ++ name.dropWhile (· ≠ '.') = name := List.takeWhile_append_dropWhile ..
  have hhead := List.head?_dropWhile_not (· ≠ '.') name
  generalize stem name = s at *
  cases hrest : name.dropWhile (· ≠ '.') with
  | nil =>
      rw [hrest, List.append_nil] at hcut
      rw [← hcut, List.splitOn_eq_singleton hstem]
      rfl
  | cons x xs =>
      -- what is left starts with the dot
      have hx : x = '.' := by
        rw [hrest] at hhead
        simpa using hhead
      rw [hrest, hx] at hcut
      rw [← hcut, List.splitOn_append_cons_self, List.splitOn_eq_singleton hstem]
      rfl

theorem getRightCategory_eq_stem {c path : Text} (h : ParentNamed c path) (hslash : '/' ∉ c) :
    getRightCategoryFromFileName path = .ok (stem c) := by
  obtain ⟨parts, name, hsplit⟩ := h.splitOn hslash
  unfold getRightCategoryFromFileName
  rw [hsplit]
  simp [item0_splitOn_dot]

/-- The folder of a nested file is named by the last component but one. -/
theorem parentNamed_nested (root : Path) (ns : List Name) (dir file : Name) :
    ParentNamed dir.text (render root (ns ++ [dir, file])) := by
  have hpath : render root (ns ++ [dir, file]) =
      withSlash (render root ns) ++ dir.text ++ '/' :: file.text := by
    have hsplit : render root (ns ++ [dir, file]) = render (render root ns) [dir, file] :=
      List.foldl_append
    rw [hsplit, render_eq]
    simp
  refine ⟨withSlash (render root ns), file.text, hpath, file.no_slash, ?_⟩
  unfold withSlash
  split
  · assumption
  · exact .inr (by simp)

/-- The name of a folder that is written as this path. With a slash at the end, it is what stands before
that slash, back to the slash before or to the beginning. -/
def folderName (root : Path) : Text :=
  ((withSlash root).dropLast.reverse.takeWhile (· ≠ '/')).reverse

theorem slash_not_mem_folderName (root : Path) : '/' ∉ folderName root := by
  intro hmem
  have hne := List.mem_takeWhile_imp (List.mem_reverse.mp hmem)
  simp at hne

/-- A path that ends in a slash, cut at its last two slashes. -/
theorem withSlash_eq (hroot : root ≠ []) :
    ∃ pre, withSlash root = pre ++ folderName root ++ ['/'] ∧
      (pre = [] ∨ pre.getLast? = some '/') := by
  have hends : (withSlash root).dropLast ++ ['/'] = withSlash root := by
    unfold withSlash
    split
    · next h =>
        obtain ⟨front, hfront⟩ := List.getLast?_eq_some_iff.mp (h.resolve_left hroot)
        rw [hfront, List.dropLast_concat]
    · rw [List.dropLast_concat]
  have hcut : ((withSlash root).dropLast.reverse.dropWhile (· ≠ '/')).reverse ++ folderName root =
      (withSlash root).dropLast := by
    rw [folderName, ← List.reverse_append, List.takeWhile_append_dropWhile, List.reverse_reverse]
  refine ⟨((withSlash root).dropLast.reverse.dropWhile (· ≠ '/')).reverse, ?_, ?_⟩
  · rw [hcut, hends]
  · have hhead := List.head?_dropWhile_not (· ≠ '/') (withSlash root).dropLast.reverse
    cases hrest : (withSlash root).dropLast.reverse.dropWhile (· ≠ '/') with
    | nil => exact .inl rfl
    | cons x xs =>
        rw [hrest] at hhead
        right
        simpa using hhead

/-- The folder of a file that is not nested is the root itself. -/
theorem parentNamed_root (hroot : root ≠ []) (file : Name) :
    ParentNamed (folderName root) (render root [file]) := by
  obtain ⟨pre, hpath, hpre⟩ := withSlash_eq hroot
  refine ⟨pre, file.text, ?_, file.no_slash, hpre⟩
  show join root file.text = _
  rw [join_name, hpath]
  simp

/-- **The expected category of a file** is the name of the folder it is in, up to the first dot: of
the innermost folder below the root, or of the root itself for a file that is not nested. The root
may be any path. Its own name is what stands before the slash that it ends in, or that is added: `e`
for `./e` and for `./e/`, and nothing for `e//`. Only the empty path names no folder at all. -/
theorem expected_category (root : Path) (folders : List Name) (file : Name) :
    getRightCategoryFromFileName (render root (folders ++ [file])) =
      if root = [] ∧ folders = [] then .error (.indexError (txt "list index out of range"))
      else .ok (stem ((folders.map Name.text).getLastD (folderName root))) := by
  cases folders using List.reverseRecOn with
  | nil =>
      by_cases hroot : root = []
      · -- the path is the file's name, and has one component
        have hpath : render root [file] = file.text := by
          rw [hroot]
          exact join_name [] file
        rw [if_pos ⟨hroot, rfl⟩, List.nil_append, hpath]
        unfold getRightCategoryFromFileName
        rw [List.splitOn_eq_singleton file.no_slash]
        rfl
      · rw [if_neg fun h => hroot h.1]
        exact getRightCategory_eq_stem (parentNamed_root hroot file) (slash_not_mem_folderName root)
  | append_singleton ns dir =>
      have h := getRightCategory_eq_stem (parentNamed_nested root ns dir file) dir.no_slash
      rw [if_neg (by simp), List.append_assoc]
      simpa using h

example : getRightCategoryFromFileName (render ['.', '/', 'e', '/'] [demoFile]) = .ok ['e'] := by
  decide

example : getRightCategoryFromFileName (render ['e', '/', '/'] [demoFile]) = .ok [] := by decide

end Expected

end CryptoScan
