import CryptoScan.Scan

/-!
# `run.py` as a program

`Scan.lean` follows a scan whose outside calls all return. Here nothing is assumed about them.

* **The plain loop** (`scan_eq_plain_loop`) — for every loop body, the machine's `for` loop over
  `scan_folder(root)` is a plain loop over the paths of the files: find the category, run the body.
  It holds for the runs that raise too, wherever the exception comes from.
* **Folder by folder** (`scan_by_subfolders`) — a scan is the scan of the folder's own files, then
  that of each sub-folder by its full path: what the recursive calls at the end of the function
  would be for, and what `os.walk` has done already.
* **The program** (`runMain_prints`) — one `print` for each file before the first one whose read,
  query or model call raises, and then that exception.
* **The output** (`stdout_determines`) — which file has which category can be read back from the
  text, if no label spells the separator.
-/

namespace CryptoScan

open Python

/-! ## The category of a file -/

section Category

variable {w w' : World} {p : Path}

/-- The two worlds answer the calls that are made for this file in the same way. The model's answers
matter only if the retrieved categories do not agree. -/
structure SameAnswers (w w' : World) (p : Path) : Prop where
  read : w.read p = w'.read p
  query : ∀ text, w.query p text 4 = w'.query p text 4
  generate : ∀ m, classifyFile w p = .ok m → earlyStop m.categoryNames = none →
    ∀ prompt, w.generate p (txt "llama3.1") prompt = w'.generate p (txt "llama3.1") prompt

theorem SameAnswers.classifyFile_eq (h : SameAnswers w w' p) :
    classifyFile w p = classifyFile w' p := by
  rw [CryptoScan.classifyFile_eq, CryptoScan.classifyFile_eq]
  simp only [h.read, h.query]

/-- Nothing but these answers decides the category of a file. -/
theorem SameAnswers.categoryOfFile_eq (h : SameAnswers w w' p) :
    categoryOfFile w p = categoryOfFile w' p := by
  rw [CryptoScan.categoryOfFile_eq, CryptoScan.categoryOfFile_eq, ← h.classifyFile_eq]
  cases hm : classifyFile w p with
  | error e => rfl
  | ok m =>
      have hdec : decideCategory w p m.categoryNames = decideCategory w' p m.categoryNames := by
        cases hs : earlyStop m.categoryNames with
        | some c => rw [decideCategory_of_early hs, decideCategory_of_early hs]
        | none =>
            rw [decideCategory_of_llm hs, decideCategory_of_llm hs, askLlm_eq, askLlm_eq]
            simp only [h.read, h.generate m hm hs]
      rw [ok_bind, ok_bind, hdec]

end Category

/-! ## The scan as a plain loop -/

section PlainLoop

variable {σ : Type} {w : World} {root : Path} {d : Dir}

/-- The files before the first one whose calls raise, with their labels, and the others. -/
theorem scan_split (w : World) (root : Path) :
    ∃ (done : List (Path × Text)) (rest : List Path),
      filesBelow w.directory root = done.map Prod.fst ++ rest ∧
      (∀ y ∈ done, FileOutcome w y.1 (.ok y.2)) ∧
      (scanFolder w root).outputs = done ∧
      match rest with
      | [] => (scanFolder w root).result = .ok ()
      | p :: _ => ∃ e, FileOutcome w p (.error e) ∧ (scanFolder w root).result = .error e := by
  have hlabelled : ∀ p y, labelFile w p = .ok y → y = labelled w p := by
    intro p y hy
    rcases labelFile_cases w p with ⟨c, -, hl⟩ | ⟨e, -, hl⟩
    · exact Except.ok.inj (hy.symm.trans hl)
    · rw [hl] at hy
      cases hy
  obtain ⟨done, rest, hsplit, -, hfetched, hrest⟩ :=
    fetched_spec hlabelled (filesBelow w.directory root)
  obtain ⟨hout, hresult⟩ := scanFolder_outputs w root
  refine ⟨done.map (labelled w), rest, ?_, ?_, hout.trans hfetched, ?_⟩
  · rw [map_fst_labelled, hsplit]
  · intro y hy
    rw [← hfetched, ← hout] at hy
    exact (of_mem_outputs hy).2
  · rw [hresult]
    cases rest with
    | nil => exact hrest
    | cons p rest =>
        obtain ⟨e, he, hends⟩ := hrest
        refine ⟨e, fileOutcome_iff.mpr ?_, hends⟩
        rcases labelFile_cases w p with ⟨c, -, hc⟩ | ⟨e', hc, he'⟩
        · rw [he] at hc
          cases hc
        · rw [he] at he'
          cases he'
          exact hc

/-- **The machine's loop is the plain loop.** Driving an object made by `scan_folder(root)` to its
end, with any loop body, is to go through the files below `root`, to find the category of each and
to run the body on it; an exception of either ends the loop there. No other object of the heap has
moved. Behind them there is one object for each sub-folder name of each folder whose files have all
gone through, in the order of the walk, and none of these has been started. -/
theorem scan_eq_plain_loop (w : World) (root : Path) (c : Gen.Consumer (Path × Text) Exc σ) (s : σ)
    (heap : List (Gen.Obj (Path × Text) Call Exc)) (i : Nat)
    (hi : heap[i]? = some (.fresh (.scanFolder root))) :
    ∃ n₀, ∀ n ≥ n₀, ∃ o,
      Gen.forLoop (bodies w) c n heap i s =
        ((forList (fetchThen (labelFile w) c.body) (filesBelow w.directory root) s).1,
          some (forList (fetchThen (labelFile w) c.body) (filesBelow w.directory root) s).2,
          heap.set i o ++
            ((completed (visitFiles w c.body) (osWalk w.directory root) s).flatMap
              Visit.dirNames).map fun name => .fresh (.scanFolder name)) := by
  refine ⟨(scanFolder w root).emits + 1, fun n hn => ?_⟩
  let scan : Gen.Obj (Path × Text) Call Exc := .fresh (.scanFolder root)
  have hbody : scan.body (bodies w) = scanFolder w root := rfl
  have hfuel : (scan.body (bodies w)).emits < n := Nat.lt_of_succ_le hn
  obtain ⟨o, hloop, -⟩ := Gen.forLoop_eq_forEach c hi hfuel s
  refine ⟨o, ?_⟩
  rw [hloop, hbody, forEach_scanFolder, calls_scanFolder, List.map_map]
  rfl

/-- One round of this loop, on a tree with one file, next to an object that is not iterated. -/
theorem scan_eq_plain_loop_demo :
    ∃ n₀, ∀ n ≥ n₀, ∃ o,
      Gen.forLoop (bodies (demoWorld [['R', 'S', 'A']] [])) Gen.collector n
          [.fresh (.scanFolder ['d']), .fresh (.scanFolder ['e'])] 1 [] =
        ([(['e', '/', 'R', 'S', 'A', '/', 'k'], ['R', 'S', 'A'])], some (.ok ()),
          [.fresh (.scanFolder ['d']), o, .fresh (.scanFolder ['R', 'S', 'A'])]) := by
  obtain ⟨n₀, hn₀⟩ := scan_eq_plain_loop (demoWorld [['R', 'S', 'A']] []) ['e'] Gen.collector []
    [.fresh (.scanFolder ['d']), .fresh (.scanFolder ['e'])] 1 rfl
  refine ⟨n₀, fun n hn => ?_⟩
  obtain ⟨o, hloop⟩ := hn₀ n hn
  exact ⟨o, hloop.trans rfl⟩

/-! ## Folder by folder -/

/-- The file system shows the same sub-folders when it is asked for them by their own paths. -/
def ShowsSubfolders (w : World) (root : Path) (d : Dir) : Prop :=
  ∀ e ∈ d.listing.subs, ∃ sub, w.directory (join root e.1.text) = some sub ∧ sub.listing = e.2

theorem filesBelow_by_subfolders (hd : w.directory root = some d)
    (hsubs : ShowsSubfolders w root d) :
    filesBelow w.directory root = (d.listing.fileNames.map fun n => join root n.text) ++
      d.listing.dirNames.flatMap fun n => filesBelow w.directory (join root n.text) := by
  rw [filesBelow_of_directory hd, Listing.files, List.map_append, List.map_map,
    Listing.subFiles_eq_flatMap, List.map_flatMap, Listing.dirNames_eq_map_subs, List.flatMap_map]
  congr 1
  apply List.flatMap_congr
  intro e he
  obtain ⟨sub, hsub, hlisting⟩ := hsubs e he
  rw [filesBelow_of_directory hsub, hlisting, List.map_map]
  rfl

/-- **A scan goes folder by folder**: first the folder's own files, then a scan of each sub-folder
by its full path, one after the other, in the order of the listing. -/
theorem scan_by_subfolders (w : World) (root : Path) (d : Dir) (hd : w.directory root = some d)
    (hsubs : ShowsSubfolders w root d) (c : Gen.Consumer (Path × Text) Exc σ) (s : σ) :
    (scanFolder w root).forEach c s =
      andThen
        (forList (fetchThen (labelFile w) c.body) (d.listing.fileNames.map fun n => join root n.text)
          s)
        fun _ s' =>
          forList (fun n => (scanFolder w (join root n.text)).forEach c) d.listing.dirNames s' := by
  have hfolder : ∀ p, (scanFolder w p).forEach c =
      forList (fetchThen (labelFile w) c.body) (filesBelow w.directory p) :=
    fun p => funext (forEach_scanFolder w p c)
  rw [hfolder, filesBelow_by_subfolders hd hsubs, forList_append]
  simp only [forList_flatMap, hfolder]

/-- `demoWorld`, with the sub-folder of `demoDir` at its own path too. -/
def demoNested : World :=
  { demoWorld [['R', 'S', 'A']] [] with
    directory := fun p =>
      if p = ['e'] then some demoDir
      else if p = ['e', '/', 'R', 'S', 'A'] then some ⟨.file demoFile .nil, by decide⟩
      else none }

theorem scan_by_subfolders_demo :
    (scanFolder demoNested ['e']).forEach Gen.collector [] =
      (scanFolder demoNested ['e', '/', 'R', 'S', 'A']).forEach Gen.collector [] := by
  have hsubs : ShowsSubfolders demoNested ['e'] demoDir := by
    intro e he
    rw [List.mem_singleton.mp he]
    exact ⟨⟨.file demoFile .nil, by decide⟩, rfl, rfl⟩
  have h := scan_by_subfolders demoNested ['e'] demoDir rfl hsubs Gen.collector []
  rw [h]
  exact andThen_return ((scanFolder demoNested ['e', '/', 'R', 'S', 'A']).forEach Gen.collector [])

end PlainLoop

/-! ## The program -/

section Program

variable {w w' : World} {root root' : Path}

/-- `f"File: {file} Category: {cat}"`. -/
def resultLine (y : Path × Text) : Text := txt "File: " ++ y.1 ++ txt " Category: " ++ y.2

/-- The loop body of the program. What a scan prints would go to the same output. -/
def printer : Gen.Consumer (Path × Text) Exc (List Text) where
  say l out := out ++ [l]
  body y out := (out ++ [resultLine y], .ok ())

/-- `python run.py folder`: the lines it prints, and how it ends. -/
def runMain (w : World) : (argv : List Text) → List Text × Except Exc Unit
  | _ :: folderPath :: _ => (scanFolder w folderPath).forEach printer []
  | _ => ([], .error (.indexError (txt "list index out of range")))

theorem runMain_eq (w : World) (prog root : Text) (args : List Text) :
    runMain w (prog :: root :: args) =
      ((scanFolder w root).outputs.map resultLine, (scanFolder w root).result) := by
  obtain ⟨hout, hresult⟩ := scanFolder_outputs w root
  have hwrites : ∀ y ∈ fetched (labelFile w) (filesBelow w.directory root),
      Writes (printer.body y) := fun _ _ _ => rfl
  show (scanFolder w root).forEach printer [] = _
  rw [hout, hresult, forEach_scanFolder, forList_fetchThen, forList_of_ok hwrites fun _ _ => rfl]
  show ([] ++ _, _) = _
  rw [List.nil_append, List.map_eq_flatMap]
  rfl

/-- **What `run.py` prints.** The files below the folder fall into those whose calls return and, from
the first exception on, the rest. There is one `print` for each of the former, in order, with the
label its answers give; if a file is left, the program ends with the exception of the call that was
made for it: of the read, of the query, or of the model, or for a reply without what is taken from
it. -/
theorem runMain_prints (w : World) (prog root : Text) (args : List Text) :
    ∃ (done : List (Path × Text)) (rest : List Path),
      filesBelow w.directory root = done.map Prod.fst ++ rest ∧
      (∀ y ∈ done, CallsReturn w y.1 ∧ FileOutcome w y.1 (.ok y.2)) ∧
      (runMain w (prog :: root :: args)).1 = done.map resultLine ∧
      match rest with
      | [] => (runMain w (prog :: root :: args)).2 = .ok ()
      | p :: _ => ∃ e, FileOutcome w p (.error e) ∧
          (runMain w (prog :: root :: args)).2 = .error e := by
  obtain ⟨done, rest, hsplit, hdone, hout, hrest⟩ := scan_split w root
  rw [runMain_eq]
  refine ⟨done, rest, hsplit, ?_, congrArg (List.map resultLine) hout, hrest⟩
  exact fun y hy => ⟨(hdone y hy).callsReturn, hdone y hy⟩

/-! ## Reading the output back -/

/-- A pair whose line can be read back: no line breaks, and a label that does not spell the
separator. The path may. -/
structure Readable (y : Path × Text) : Prop where
  path : '\n' ∉ y.1
  label : '\n' ∉ y.2
  separator : ¬ txt "Category: " <:+: y.2

theorem separator_eq : txt " Category: " =
    [' ', 'C', 'a', 't', 'e', 'g', 'o', 'r', 'y', ':', ' '] := rfl

/-- Behind a separator no other one starts: not inside it, since a blank is at its ends only, and
not further behind. -/
theorem separator_last {c : Text} (h : ¬ txt "Category: " <:+: c) :
    ∀ k > 0, ¬ OccursAt (txt " Category: ") (txt " Category: " ++ c) k := by
  intro k hk hocc
  by_cases hlt : k < 10
  · have hblank := hocc.getElem? (k := 0) (by decide)
    rw [Nat.add_zero, List.getElem?_append_left (by rw [separator_eq]; simp; omega),
      separator_eq] at hblank
    have hinner : ∀ k < 10, 0 < k →
        [' ', 'C', 'a', 't', 'e', 'g', 'o', 'r', 'y', ':', ' '][k]? ≠ some ' ' := by decide
    exact hinner k hlt hk hblank
  · -- the word itself starts one letter later, in the label
    apply h
    have hnext : OccursAt (txt "Category: ") (txt " Category: " ++ c) (k + 1) := hocc.tail
    rw [OccursAt, List.drop_append, List.drop_eq_nil_of_le (by rw [separator_eq]; simp; omega),
      List.nil_append] at hnext
    exact hnext.isInfix.trans (List.drop_suffix _ _).isInfix

theorem resultLine_injective {y y' : Path × Text} (hy : Readable y) (hy' : Readable y')
    (h : resultLine y = resultLine y') : y = y' := by
  unfold resultLine at h
  simp only [List.append_assoc] at h
  have hrest := List.append_cancel_left h
  rw [← List.append_assoc, ← List.append_assoc] at hrest
  obtain ⟨hpath, hlabel⟩ :=
    append_sep_injective (separator_last hy.separator) (separator_last hy'.separator) hrest
  exact Prod.ext hpath hlabel

theorem newline_not_mem_resultLine {y : Path × Text} (hy : Readable y) : '\n' ∉ resultLine y := by
  have hfile : '\n' ∉ txt "File: " := by
    have heq : txt "File: " = ['F', 'i', 'l', 'e', ':', ' '] := rfl
    rw [heq]
    decide
  have hsep : '\n' ∉ txt " Category: " := by
    rw [separator_eq]
    decide
  simp [resultLine, hfile, hsep, hy.path, hy.label]

/-- **The output determines the labels.** If two runs, finished or not, write the same text, they
have seen the same files in the same order and found the same categories for them. -/
theorem stdout_determines (w w' : World) (root root' : Path) (prog prog' : Text)
    (h : ∀ y ∈ (scanFolder w root).outputs, Readable y)
    (h' : ∀ y ∈ (scanFolder w' root').outputs, Readable y)
    (heq : printed (runMain w [prog, root]).1 = printed (runMain w' [prog', root']).1) :
    (scanFolder w root).outputs = (scanFolder w' root').outputs := by
  have hlines : ∀ (w : World) (root : Path) (prog : Text),
      (runMain w [prog, root]).1 = (scanFolder w root).outputs.map resultLine := by
    intro w root prog
    rw [runMain_eq]
  have hbreaks : ∀ ys : List (Path × Text), (∀ y ∈ ys, Readable y) →
      ∀ l ∈ ys.map resultLine, '\n' ∉ l := by
    intro ys hys l hl
    obtain ⟨y, hy, rfl⟩ := List.mem_map.mp hl
    exact newline_not_mem_resultLine (hys y hy)
  rw [hlines, hlines] at heq
  have hmap := printed_injective (hbreaks _ h) (hbreaks _ h') heq
  exact map_injective_on (fun _ _ => resultLine_injective) h h' hmap

end Program

end CryptoScan
