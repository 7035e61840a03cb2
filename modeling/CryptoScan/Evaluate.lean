import CryptoScan.Scan

/-!
# `evaluate.py`: scoring a scan

The scan's labels are compared with the name of the directory each file is in. The loop keeps four
things: how many files there were, how many were right, and the right and wrong ones as lists.
`forList_tallyStep` gives all four in closed form, for any sequence of labelled files.

A file's directory name is a bare category name. The label has to be one too, or the comparison
cannot succeed. On the early-stop route it is; on the other route the answer parser has put its
mark in front. `counted_iff_early_stop` follows one file through the whole program, from the tree
to the score: whichever route decides for the right category, the file is counted exactly when it
was the first.
-/

namespace CryptoScan

open Python

/-! ## The expected category -/

/-- `file_name.split('/')[-2].split('.')[0]`. -/
def getRightCategoryFromFileName (fileName : Path) : Except Exc Text :=
  match (fileName.splitOn '/').reverse with
  | _ :: parent :: _ => item0 (parent.splitOn '.')
  -- no slash, so there is no part `[-2]`
  | _ => .error (.indexError (txt "list index out of range"))

/-! ## The classification loop -/

structure Tally where
  total : Nat
  correct : Nat
  wrongs : List (Path × Text × Text)
  rights : List (Path × Text)
  deriving DecidableEq

def Tally.start : Tally := ⟨0, 0, [], []⟩

/-- The loop body. -/
def tallyStep (y : Path × Text) (s : Tally) : Tally × Except Exc Unit :=
  match getRightCategoryFromFileName y.1 with
  -- the file is in the total before its path is looked at
  | .error e => ({ s with total := s.total + 1 }, .error e)
  | .ok actual =>
      if actual = y.2 then
        ({ s with total := s.total + 1, correct := s.correct + 1, rights := s.rights ++ [y] },
          .ok ())
      else
        ({ s with total := s.total + 1, wrongs := s.wrongs ++ [(y.1, y.2, actual)] }, .ok ())

def evaluator : Gen.Consumer (Path × Text) Exc Tally := ⟨fun _ s => s, tallyStep⟩

/-- `for file_path, category in scan_folder(folder): …`. -/
def evaluate (w : World) (folder : Path) : Tally × Except Exc Unit :=
  (scanFolder w folder).forEach evaluator .start

/-! ## Reading the directory name -/

section DirectoryName

variable {c path : Text}

/-- The file's directory is named `c`: the last component but one of its path. -/
def ParentNamed (c path : Text) : Prop :=
  ∃ pre name, path = pre ++ c ++ '/' :: name ∧ '/' ∉ name ∧
    (pre = [] ∨ pre.getLast? = some '/')

/-- Any path with a slash has a directory name. -/
theorem getRightCategory_ok (h : '/' ∈ path) :
    ∃ a, getRightCategoryFromFileName path = .ok a := by
  obtain ⟨xs, ys, rfl⟩ := List.append_of_mem h
  unfold getRightCategoryFromFileName
  rw [List.splitOn_append_cons_self, List.reverse_append]
  have hys : (ys.splitOn '/').reverse ≠ [] := by simp
  have hxs : (xs.splitOn '/').reverse ≠ [] := by simp
  obtain ⟨y, ys', hy⟩ := List.exists_cons_of_ne_nil hys
  obtain ⟨x, xs', hx⟩ := List.exists_cons_of_ne_nil hxs
  obtain ⟨a, as, ha⟩ := List.exists_cons_of_ne_nil (List.splitOn_ne_nil '.' x)
  rw [hy, hx]
  cases ys' with
  | nil => exact ⟨a, by simp [ha, item0]⟩
  | cons z zs =>
      obtain ⟨b, bs, hb⟩ := List.exists_cons_of_ne_nil (List.splitOn_ne_nil '.' z)
      exact ⟨b, by simp [hb, item0]⟩

/-- The components of such a path: the directory's name is the last but one. -/
theorem ParentNamed.splitOn (h : ParentNamed c path) (hslash : '/' ∉ c) :
    ∃ parts name, path.splitOn '/' = parts ++ [c] ++ [name] := by
  obtain ⟨pre, name, rfl, hname, hpre⟩ := h
  rw [List.splitOn_append_cons_self, List.splitOn_eq_singleton hname]
  rcases hpre with rfl | hlast
  · exact ⟨[], name, by rw [List.nil_append, List.splitOn_eq_singleton hslash]; rfl⟩
  · obtain ⟨pre', rfl⟩ := List.getLast?_eq_some_iff.mp hlast
    refine ⟨pre'.splitOn '/', name, ?_⟩
    rw [List.append_assoc, List.singleton_append, List.splitOn_append_cons_self,
      List.splitOn_eq_singleton hslash]

/-- A directory name without dots is read back as it is. -/
theorem getRightCategory_of_parentNamed (h : ParentNamed c path) (hslash : '/' ∉ c)
    (hdot : '.' ∉ c) : getRightCategoryFromFileName path = .ok c := by
  obtain ⟨parts, name, hsplit⟩ := h.splitOn hslash
  unfold getRightCategoryFromFileName
  rw [hsplit]
  simp [List.splitOn_eq_singleton hdot, item0]

theorem possibleCategories_no_separator :
    ∀ c ∈ possibleCategories, '/' ∉ c ∧ '.' ∉ c := by
  rw [possibleCategories_eq]
  decide

end DirectoryName

/-! ## What the loop computes -/

section Loop

variable {ys : List (Path × Text)}

/-- The label is the directory name. -/
def isRight (y : Path × Text) : Bool := decide (getRightCategoryFromFileName y.1 = .ok y.2)

/-- The actual category of a path that has one. -/
def actualCategory (path : Path) : Text :=
  match getRightCategoryFromFileName path with
  | .ok a => a
  | .error _ => []

def wrongEntry (y : Path × Text) : Path × Text × Text := (y.1, y.2, actualCategory y.1)

/-- One round, for a path with a slash. -/
theorem tallyStep_eq {y : Path × Text} (h : '/' ∈ y.1) (s : Tally) :
    tallyStep y s =
      (if isRight y then
        { s with total := s.total + 1, correct := s.correct + 1, rights := s.rights ++ [y] }
      else { s with total := s.total + 1, wrongs := s.wrongs ++ [wrongEntry y] }, .ok ()) := by
  obtain ⟨a, ha⟩ := getRightCategory_ok h
  unfold tallyStep isRight wrongEntry actualCategory
  rw [ha]
  by_cases hay : a = y.2
  · simp [hay]
  · simp [hay]

/-- **The loop in closed form**: right and wrong files apart, in order, and the two counts. -/
theorem forList_tallyStep (h : ∀ y ∈ ys, '/' ∈ y.1) (s : Tally) :
    forList tallyStep ys s =
      (⟨s.total + ys.length, s.correct + (ys.filter isRight).length,
        s.wrongs ++ (ys.filter (!isRight ·)).map wrongEntry, s.rights ++ ys.filter isRight⟩,
        .ok ()) := by
  induction ys generalizing s with
  | nil => simp [forList]
  | cons y ys ih =>
      unfold forList
      show andThen (tallyStep y s) _ = _
      rw [tallyStep_eq (h y (by simp))]
      show forList tallyStep ys _ = _
      rw [ih fun z hz => h z (by simp [hz])]
      cases hy : isRight y
      · simp [hy, Nat.add_assoc, Nat.add_comm 1]
      · simp [hy, Nat.add_assoc, Nat.add_comm 1]

/-- The classification loop over a sequence of labelled files. -/
def tally (ys : List (Path × Text)) : Tally × Except Exc Unit := forList tallyStep ys .start

/-- Its result: right and wrong files apart, in order, and the two counts. -/
def scored (ys : List (Path × Text)) : Tally where
  total := ys.length
  correct := (ys.filter isRight).length
  wrongs := (ys.filter (!isRight ·)).map wrongEntry
  rights := ys.filter isRight

theorem tally_eq (h : ∀ y ∈ ys, '/' ∈ y.1) : tally ys = (scored ys, .ok ()) := by
  unfold tally scored
  rw [forList_tallyStep h]
  simp [Tally.start]

/-- The loop scores what is yielded, and ends as the scan does. -/
theorem evaluate_eq_tally (w : World) (root : Path) :
    evaluate w root = andThen (tally (scanFolder w root).outputs) fun _ s =>
      (s, (scanFolder w root).result) := by
  unfold evaluate
  rw [Gen.forEach_eq_forList fun _ _ => rfl]
  rfl

/-- No directory has the empty path, so every path that is yielded has a slash. -/
theorem slash_mem_outputs {w : World} {root : Path} (hroot : root ≠ []) :
    ∀ y ∈ (scanFolder w root).outputs, '/' ∈ y.1 := by
  intro y hy
  have hfile : y.1 ∈ filesBelow w.directory root := (of_mem_outputs hy).1
  cases hd : w.directory root with
  | none =>
      rw [filesBelow_of_none hd] at hfile
      cases hfile
  | some d =>
      rw [filesBelow_of_directory hd] at hfile
      obtain ⟨q, hq, hpath⟩ := List.mem_map.mp hfile
      rw [← hpath]
      exact slash_mem_render hroot (Listing.mem_files_iff.mp hq).ne_nil

/-- **Any scan is scored** as far as it goes, every file it yields counted once. -/
theorem evaluate_eq_scored (w : World) {root : Path} (hroot : root ≠ []) :
    evaluate w root = (scored (scanFolder w root).outputs, (scanFolder w root).result) := by
  rw [evaluate_eq_tally, tally_eq (slash_mem_outputs hroot), andThen_ok]

/-- The labelled files of a tree, in the order of the scan. -/
def labelledFiles (w : World) (root : Path) (d : Dir) : List (Path × Text) :=
  (d.listing.files.map (render root)).map (labelled w)

theorem labelledFiles_nodup (w : World) (root : Path) (d : Dir) :
    ((labelledFiles w root d).map Prod.fst).Nodup := by
  unfold labelledFiles
  rw [map_fst_labelled]
  exact rendered_nodup root d.wellFormed

/-- A scan whose calls return is scored to its end. -/
theorem evaluate_eq {w : World} {root : Path} {d : Dir} (hroot : root ≠ [])
    (hd : w.directory root = some d)
    (hcalls : ∀ p, d.listing.HasFile p → CallsReturn w (render root p)) :
    evaluate w root = (scored (labelledFiles w root d), .ok ()) := by
  obtain ⟨hr, ho⟩ := scanFolder_spec hd hcalls
  rw [evaluate_eq_scored w hroot, ho, hr]
  rfl

end Loop

/-! ## From the tree to the score -/

section Route

variable {w : World} {root path : Path} {d : Dir} {m : FileMetadata} {c answer : Text}
  {categories : List Text}

/-- The route taken decides for `c`: the retrieved categories are all `c`, or `early_stop` gives
up and `c` is the first category that the answer names. -/
def Decides (categories : List Text) (answer c : Text) : Prop :=
  (categories ≠ [] ∧ ∀ x ∈ categories, x = c) ∨
    (earlyStop categories = none ∧ ∃ i, FirstAt possibleCategories answer i c)

theorem renameEllipticCurves_of_mem (hc : c ∈ possibleCategories) : renameEllipticCurves c = c := by
  have hall : ∀ c ∈ possibleCategories,
      c ≠ ['E', 'L', 'L', 'I', 'P', 'T', 'I', 'C', '_', 'C', 'U', 'R', 'V', 'E', 'S'] := by
    rw [possibleCategories_eq]
    decide
  exact if_neg (hall c hc)

theorem renameEllipticCurves_llmMark (c : Text) :
    renameEllipticCurves (llmMark ++ c) = llmMark ++ c := by
  apply if_neg
  intro h
  have hhead := congrArg List.head? h
  cases hhead

theorem llmMark_append_ne (c : Text) : llmMark ++ c ≠ c := by
  intro h
  have hlen := congrArg List.length h
  rw [List.length_append] at hlen
  have hmark : llmMark.length = 4 := rfl
  omega

/-- The label of a file whose route decides for `c`: bare on the first route, marked on the
second. -/
theorem categoryOfFile_of_decides (hc : c ∈ possibleCategories)
    (hm : classifyFile w path = .ok m)
    (ha : earlyStop m.categoryNames = none → askLlm w path m.categoryNames = .ok answer)
    (h : Decides m.categoryNames answer c) :
    categoryOfFile w path =
      .ok (if earlyStop m.categoryNames = none then llmMark ++ c else c) := by
  rcases h with hall | ⟨hnone, i, hfirst⟩
  · have hs : earlyStop m.categoryNames = some c := earlyStop_eq_some_iff.mpr hall
    rw [categoryOfFile_of_early hm hs, renameEllipticCurves_of_mem hc, hs]
    simp
  · obtain ⟨j, -, hj⟩ := (firstAt_iff_stripBy possibleCategories_solid).mp hfirst
    rw [categoryOfFile_of_llm hm hnone (ha hnone) (parseAnswerV2_of_firstAt hj),
      renameEllipticCurves_llmMark, if_pos hnone]

theorem mem_labelledFiles {p : List Name} {label : Text} (hp : d.listing.HasFile p)
    (hlabel : categoryOfFile w (render root p) = .ok label) :
    (render root p, label) ∈ labelledFiles w root d := by
  have hpair : labelled w (render root p) = (render root p, label) := by
    unfold labelled categoryOr
    rw [hlabel]
  rw [← hpair]
  exact List.mem_map_of_mem (List.mem_map_of_mem (Listing.mem_files_iff.mpr hp))

theorem eq_label_of_mem {label label' : Text} (h : (path, label) ∈ labelledFiles w root d)
    (hlabel : categoryOfFile w path = .ok label') : label = label' := by
  obtain ⟨q, -, hq⟩ := List.mem_map.mp h
  obtain ⟨rfl, rfl⟩ := Prod.mk.inj hq
  unfold categoryOr
  rw [hlabel]

/-- **Where a right decision is counted.** Take a file in a directory named `c`, and let the route
that the scan takes for it decide for `c`. The scan yields the file with the label `c`, and the
evaluation of the tree counts it, iff all retrieved categories are `c`, that is, iff `early_stop`
decided. -/
theorem counted_iff_early_stop (w : World) (root : Path) (d : Dir) (hroot : root ≠ [])
    (hd : w.directory root = some d)
    (hcalls : ∀ q, d.listing.HasFile q → CallsReturn w (render root q))
    (p : List Name) (hp : d.listing.HasFile p) (c : Text) (hc : c ∈ possibleCategories)
    (hparent : ParentNamed c (render root p)) (m : FileMetadata) (answer : Text)
    (hm : classifyFile w (render root p) = .ok m)
    (ha : earlyStop m.categoryNames = none →
      askLlm w (render root p) m.categoryNames = .ok answer)
    (hdec : Decides m.categoryNames answer c) :
    ((render root p, c) ∈ (scanFolder w root).outputs ∧
        getRightCategoryFromFileName (render root p) = .ok c ∧
        (evaluate w root).2 = .ok () ∧
        (evaluate w root).1.rights.count (render root p, c) = 1 ∧
        (evaluate w root).1.correct = (evaluate w root).1.rights.length) ↔
      m.categoryNames ≠ [] ∧ ∀ x ∈ m.categoryNames, x = c := by
  have hlabel := categoryOfFile_of_decides hc hm ha hdec
  obtain ⟨hslash, hdot⟩ := possibleCategories_no_separator c hc
  have hright := getRightCategory_of_parentNamed hparent hslash hdot
  have hyields : (scanFolder w root).outputs = labelledFiles w root d :=
    (scanFolder_spec hd hcalls).2
  rw [← earlyStop_eq_some_iff, hyields]
  constructor
  · rintro ⟨hmem, -⟩
    rcases hdec with hall | ⟨hnone, -⟩
    · exact earlyStop_eq_some_iff.mpr hall
    · -- the model's route: the label is marked, so it is not `c`
      rw [if_pos hnone] at hlabel
      exact absurd (eq_label_of_mem hmem hlabel).symm (llmMark_append_ne c)
  · intro hs
    rw [hs, if_neg (by simp)] at hlabel
    have hmem := mem_labelledFiles hp hlabel
    refine ⟨hmem, hright, ?_⟩
    rw [evaluate_eq hroot hd hcalls]
    refine ⟨rfl, ?_, rfl⟩
    -- the rights are some of the labelled files, and no path is scanned twice
    apply List.count_eq_one_of_mem
    · exact (List.Nodup.of_map Prod.fst (labelledFiles_nodup w root d)).filter _
    · exact List.mem_filter.mpr ⟨hmem, decide_eq_true hright⟩

/-- The file that the model decides for is not lost: it is counted as wrong. -/
theorem marked_counted_wrong (hroot : root ≠ []) (hd : w.directory root = some d)
    (hcalls : ∀ q, d.listing.HasFile q → CallsReturn w (render root q)) {p : List Name}
    (hp : d.listing.HasFile p) (hlabel : categoryOfFile w (render root p) = .ok (llmMark ++ c))
    (hright : getRightCategoryFromFileName (render root p) = .ok c) :
    (render root p, llmMark ++ c, c) ∈ (evaluate w root).1.wrongs := by
  have hmem := mem_labelledFiles hp hlabel
  rw [evaluate_eq hroot hd hcalls]
  refine List.mem_map.mpr ⟨_, List.mem_filter.mpr ⟨hmem, ?_⟩, ?_⟩
  · have hne : (Except.ok c : Except Exc Text) ≠ .ok (llmMark ++ c) :=
      fun h => llmMark_append_ne c (Except.ok.inj h).symm
    simp [isRight, hright, hne]
  · unfold wrongEntry actualCategory
    rw [hright]

def demoPath : List Name := [demoFolder, demoFile]

def demoInnerPath : List Name := [demoFolder, demoSubfolder, demoFile]

theorem demoPath_parentNamed : ParentNamed ['R', 'S', 'A'] (render ['e'] demoPath) :=
  ⟨['e', '/'], ['k'], rfl, by decide, .inr rfl⟩

theorem demoInnerPath_parentNamed : ParentNamed ['D', 'S', 'A'] (render ['e'] demoInnerPath) :=
  ⟨['e', '/', 'R', 'S', 'A', '/'], ['k'], rfl, by decide, .inr rfl⟩

/-- Both files are decided for rightly. The outer one is counted, the inner one, for which the model
was asked, is not. -/
theorem counted_iff_early_stop_demo :
    ((render ['e'] demoPath, ['R', 'S', 'A']) ∈ (scanFolder demoRoutes ['e']).outputs ∧
        (evaluate demoRoutes ['e']).1.rights.count (render ['e'] demoPath, ['R', 'S', 'A']) = 1) ∧
      ¬ ((render ['e'] demoInnerPath, ['D', 'S', 'A']) ∈ (scanFolder demoRoutes ['e']).outputs ∧
        getRightCategoryFromFileName (render ['e'] demoInnerPath) = .ok ['D', 'S', 'A'] ∧
        (evaluate demoRoutes ['e']).2 = .ok () ∧
        (evaluate demoRoutes ['e']).1.rights.count
          (render ['e'] demoInnerPath, ['D', 'S', 'A']) = 1 ∧
        (evaluate demoRoutes ['e']).1.correct = (evaluate demoRoutes ['e']).1.rights.length) := by
  have hc : ['R', 'S', 'A'] ∈ possibleCategories := by
    rw [possibleCategories_eq]
    decide
  have hc' : ['D', 'S', 'A'] ∈ possibleCategories := by
    rw [possibleCategories_eq]
    decide
  have hdec : Decides [['R', 'S', 'A'], ['D', 'S', 'A']] ['D', 'S', 'A'] ['D', 'S', 'A'] :=
    .inr ⟨by decide, 0, hc', by decide, fun j hj => absurd hj (Nat.not_lt_zero j)⟩
  have houter := counted_iff_early_stop demoRoutes ['e'] demoTree (by decide) rfl
    (fun _ _ => demoRoutes_callsReturn _) demoPath (.down .here) ['R', 'S', 'A'] hc
    demoPath_parentNamed ⟨[⟨['R', 'S', 'A']⟩, ⟨['R', 'S', 'A']⟩], [], []⟩ ['D', 'S', 'A'] rfl
    (fun _ => rfl) (.inl (by decide))
  have hinner := counted_iff_early_stop demoRoutes ['e'] demoTree (by decide) rfl
    (fun _ _ => demoRoutes_callsReturn _) demoInnerPath (.down (.skipFile (.down .here)))
    ['D', 'S', 'A'] hc' demoInnerPath_parentNamed
    ⟨[⟨['R', 'S', 'A']⟩, ⟨['D', 'S', 'A']⟩], [], []⟩ ['D', 'S', 'A'] rfl (fun _ => rfl) hdec
  obtain ⟨hyield, -, -, hcount, -⟩ := houter.mpr (by decide)
  exact ⟨⟨hyield, hcount⟩, fun h => absurd (hinner.mp h) (by decide)⟩

/-- Two categories retrieved, the model names the right one, and the file is scored as wrong. -/
theorem marked_label_not_counted :
    ['R', 'S', 'A'] ∈ possibleCategories ∧
      ParentNamed ['R', 'S', 'A'] (render ['e'] demoPath) ∧
      Decides [['R', 'S', 'A'], ['D', 'S', 'A']] ['R', 'S', 'A'] ['R', 'S', 'A'] ∧
      (scanFolder (demoWorld [['R', 'S', 'A'], ['D', 'S', 'A']] ['R', 'S', 'A']) ['e']).outputs =
        [(render ['e'] demoPath, ['L', 'L', 'M', ' ', 'R', 'S', 'A'])] ∧
      evaluate (demoWorld [['R', 'S', 'A'], ['D', 'S', 'A']] ['R', 'S', 'A']) ['e'] =
        (⟨1, 0, [(render ['e'] demoPath, ['L', 'L', 'M', ' ', 'R', 'S', 'A'], ['R', 'S', 'A'])],
          []⟩, .ok ()) := by
  have hc : ['R', 'S', 'A'] ∈ possibleCategories := by
    rw [possibleCategories_eq]
    decide
  have hdec : Decides [['R', 'S', 'A'], ['D', 'S', 'A']] ['R', 'S', 'A'] ['R', 'S', 'A'] :=
    .inr ⟨by decide, 0, hc, by decide, fun j hj => absurd hj (Nat.not_lt_zero j)⟩
  let w := demoWorld [['R', 'S', 'A'], ['D', 'S', 'A']] ['R', 'S', 'A']
  have hlabel : categoryOfFile w (render ['e'] demoPath) = .ok (llmMark ++ ['R', 'S', 'A']) :=
    categoryOfFile_of_decides (m := ⟨[⟨['R', 'S', 'A']⟩, ⟨['D', 'S', 'A']⟩], [], []⟩) hc rfl
      (fun _ => rfl) hdec
  have hfiles : labelledFiles w ['e'] demoDir =
      [(render ['e'] demoPath, ['L', 'L', 'M', ' ', 'R', 'S', 'A'])] := by
    show [labelled w (render ['e'] demoPath)] = _
    unfold labelled categoryOr
    rw [hlabel]
    rfl
  have hcalls : ∀ q, demoDir.listing.HasFile q → CallsReturn w (render ['e'] q) :=
    fun _ _ => demoWorld_callsReturn _ _ _
  refine ⟨hc, demoPath_parentNamed, hdec, ?_, ?_⟩
  · rw [← hfiles]
    exact (scanFolder_spec rfl hcalls).2
  · rw [evaluate_eq (by decide) rfl hcalls, hfiles]
    decide

end Route

end CryptoScan
