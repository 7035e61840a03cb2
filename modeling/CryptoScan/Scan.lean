import CryptoScan.Python.Generator
import CryptoScan.Answer.Verified

/-!
# `run.py`: scanning a folder

`scan_folder` is a generator: it walks the tree below a folder and yields every file's path with
the category decided for it. A file takes one of two routes: if all retrieved categories agree,
`early_stop` decides; otherwise the model is asked.

At the end of each visit the function calls itself on the bare names of the sub-folders. `os.walk`
has those folders on its own list already, and a bare name is not a path; but the calls only make
generator objects, which nobody iterates. `scan_complete` is therefore about the *machine* of
`Generator.lean`: the loop over `scan_folder(root)` sees every regular file of the tree once and
nothing else, and the objects made on the way are never started.

Two statements carry everything after this module. `FileOutcome` tells what becomes of a file by the
answers to its calls, and `forEach_scanFolder` makes any loop over a scan a plain loop over the files.
-/

namespace CryptoScan

open Python

/-! ## The category of one file -/

def earlyStop (categories : List Text) : Option Text :=
  -- all categories are the same
  if categories.dedup.length = 1 then categories.head?
  -- four different categories
  else if categories.dedup.length = 4 then none
  else none

/-- The rename at the end of the loop body. -/
def renameEllipticCurves (category : Text) : Text :=
  if category = txt "ELLIPTIC_CURVES" then txt "ElipticCurves" else category

/-- `list(cat["category"] for cat in …)`. -/
def FileMetadata.categoryNames (m : FileMetadata) : List Text := m.categories.map (·.category)

section Body

variable {m : Type → Type} [Monad m] [MonadExcept Exc m]

/-- The two routes: `early_stop`, or the model. -/
def Calls.decideCategory (calls : Calls m) (filePath : Path) (categories : List Text) : m Text :=
  match earlyStop categories with
  | some category => pure category
  | none => calls.getTrueCategoryV2Codellama filePath categories

/-- The loop body of `scan_folder`, up to its `yield`. -/
def Calls.categoryOfFile (calls : Calls m) (filePath : Path) : m Text := do
  let fileMetadata ← calls.classifyFile filePath
  let category ← calls.decideCategory filePath fileMetadata.categoryNames
  pure (renameEllipticCurves category)

end Body

def decideCategory (w : World) (filePath : Path) (categories : List Text) : Except Exc Text :=
  (w.calls filePath).decideCategory filePath categories

/-- The loop body on the answers for that file. -/
def categoryOfFile (w : World) (filePath : Path) : Except Exc Text :=
  (w.calls filePath).categoryOfFile filePath

/-! ## The generator -/

/-- The calls to generator functions. -/
inductive Call where
  | scanFolder (folderPath : Path)
  deriving DecidableEq

/-- `os.walk(top)`: nothing at all where there is no directory. -/
def osWalk (directory : Path → Option Dir) (top : Path) : List Visit :=
  match directory top with
  | some d => walk top d.listing
  | none => []

/-- The loop body of `scan_folder` for one file. -/
def scanFile (w : World) (filePath : Path) : Gen (Path × Text) Call Exc Unit := do
  let category ← Gen.ofExcept (categoryOfFile w filePath)
  Gen.yield (filePath, category)

/-- The loop body of `scan_folder` for one folder of the walk. -/
def scanVisit (w : World) (folder : Visit) : Gen (Path × Text) Call Exc Unit := do
  Gen.each folder.fileNames fun fileName => scanFile w (join folder.dir fileName)
  -- the object that each of these calls makes is dropped
  Gen.each folder.dirNames fun subFolder => Gen.call (.scanFolder subFolder)

def scanFolder (w : World) (folderPath : Path) : Gen (Path × Text) Call Exc Unit :=
  Gen.each (osWalk w.directory folderPath) (scanVisit w)

/-- The body behind each call. -/
def bodies (w : World) : Call → Gen (Path × Text) Call Exc Unit
  | .scanFolder folderPath => scanFolder w folderPath

/-! ## The two routes -/

section Routes

variable {w : World} {filePath : Path} {m : FileMetadata} {categories : List Text}
  {c answer label : Text}

/-- The test for four categories makes no difference: the function would return `None` anyway. -/
theorem earlyStop_eq (categories : List Text) :
    earlyStop categories = if categories.dedup.length = 1 then categories.head? else none := by
  unfold earlyStop
  split
  · rfl
  · split <;> rfl

/-- `early_stop` decides iff there is a category and no other one. -/
theorem earlyStop_eq_some_iff :
    earlyStop categories = some c ↔ categories ≠ [] ∧ ∀ x ∈ categories, x = c := by
  rw [earlyStop_eq]
  constructor
  · intro h
    split at h
    · next hone =>
        obtain ⟨d, hd⟩ := List.length_eq_one_iff.mp hone
        have hall : ∀ x ∈ categories, x = d := by
          intro x hx
          rw [← List.mem_dedup, hd] at hx
          exact List.mem_singleton.mp hx
        have hc : c ∈ categories := List.mem_of_mem_head? h
        refine ⟨List.ne_nil_of_mem hc, ?_⟩
        intro x hx
        rw [hall x hx, hall c hc]
    · cases h
  · rintro ⟨hne, hall⟩
    obtain ⟨x, xs, rfl⟩ := List.exists_cons_of_ne_nil hne
    -- without duplicates, a list of copies of `c` has one element
    have hrep : (x :: xs).dedup = List.replicate (x :: xs).dedup.length c :=
      List.eq_replicate_of_mem fun y hy => hall y (List.mem_dedup.mp hy)
    have hle : (x :: xs).dedup.length ≤ 1 := by
      apply List.nodup_replicate.mp
      rw [← hrep]
      exact List.nodup_dedup _
    have hpos : 0 < (x :: xs).dedup.length :=
      List.length_pos_of_mem (List.mem_dedup.mpr List.mem_cons_self)
    rw [if_pos (by omega), ← hall x List.mem_cons_self]
    rfl

/-- The retrieved categories agree: there is one, and no other one. -/
def Agree (categories : List Text) : Prop :=
  categories ≠ [] ∧ ∀ x ∈ categories, ∀ y ∈ categories, x = y

instance : DecidablePred Agree := fun _ => inferInstanceAs (Decidable (_ ∧ _))

theorem earlyStop_eq_none_iff : earlyStop categories = none ↔ ¬ Agree categories := by
  rw [← not_iff_not, not_not, ← ne_eq, Option.ne_none_iff_exists']
  constructor
  · rintro ⟨c, hc⟩
    obtain ⟨hne, hall⟩ := earlyStop_eq_some_iff.mp hc
    exact ⟨hne, fun x hx y hy => (hall x hx).trans (hall y hy).symm⟩
  · rintro ⟨hne, hall⟩
    obtain ⟨c, rest, rfl⟩ := List.exists_cons_of_ne_nil hne
    exact ⟨c, earlyStop_eq_some_iff.mpr ⟨hne, fun x hx => hall x hx c List.mem_cons_self⟩⟩

/-- `categorize.py` has the same test, with a default. -/
theorem classifyDoc_eq (doc : Doc) :
    classifyDoc doc = (earlyStop (doc.categories.map (·.category))).getD (txt "NOCRYPTO") := by
  unfold classifyDoc
  split
  · next c hone =>
      have hall : ∀ x ∈ doc.categories.map (·.category), x = c := by
        intro x hx
        rw [← List.mem_dedup] at hx
        exact List.mem_singleton.mp (hone ▸ hx)
      have hne : doc.categories.map (·.category) ≠ [] := by
        intro hnil
        rw [Doc.distinctCategories, hnil] at hone
        cases hone
      rw [earlyStop_eq_some_iff.mpr ⟨hne, hall⟩]
      rfl
  · next hmany =>
      have hlen : (doc.categories.map (·.category)).dedup.length ≠ 1 := by
        intro hone
        obtain ⟨x, hx⟩ := List.length_eq_one_iff.mp hone
        exact hmany x hx
      rw [earlyStop_eq, if_neg hlen]
      rfl

theorem decideCategory_of_early (hs : earlyStop categories = some c) :
    decideCategory w filePath categories = .ok c := by
  unfold decideCategory Calls.decideCategory
  rw [hs]
  rfl

theorem decideCategory_of_llm (hs : earlyStop categories = none) :
    decideCategory w filePath categories = askLlm w filePath categories >>= parseAnswerV2 := by
  rw [← getTrueCategoryV2Codellama_eq]
  unfold decideCategory Calls.decideCategory
  rw [hs]
  rfl

theorem categoryOfFile_eq (w : World) (filePath : Path) :
    categoryOfFile w filePath = classifyFile w filePath >>= fun m =>
      decideCategory w filePath m.categoryNames >>= fun c => .ok (renameEllipticCurves c) := rfl

theorem categoryOfFile_of_early (hm : classifyFile w filePath = .ok m)
    (hs : earlyStop m.categoryNames = some c) :
    categoryOfFile w filePath = .ok (renameEllipticCurves c) := by
  rw [categoryOfFile_eq, hm, ok_bind, decideCategory_of_early hs, ok_bind]

theorem categoryOfFile_of_llm (hm : classifyFile w filePath = .ok m)
    (hs : earlyStop m.categoryNames = none)
    (ha : askLlm w filePath m.categoryNames = .ok answer) (hp : parseAnswerV2 answer = .ok label) :
    categoryOfFile w filePath = .ok (renameEllipticCurves label) := by
  rw [categoryOfFile_eq, hm, ok_bind, decideCategory_of_llm hs, ha, ok_bind, hp, ok_bind]

/-- The outside calls made for a file come back: the query, and the model where it is asked. -/
def CallsReturn (w : World) (filePath : Path) : Prop :=
  ∃ m, classifyFile w filePath = .ok m ∧
    (earlyStop m.categoryNames = none → ∃ answer, askLlm w filePath m.categoryNames = .ok answer)

/-- Then the file has a category: nothing else in the loop body can raise. -/
theorem CallsReturn.category (h : CallsReturn w filePath) :
    ∃ c, categoryOfFile w filePath = .ok c := by
  obtain ⟨m, hm, hllm⟩ := h
  cases hs : earlyStop m.categoryNames with
  | some c => exact ⟨_, categoryOfFile_of_early hm hs⟩
  | none =>
      obtain ⟨answer, ha⟩ := hllm hs
      obtain ⟨label, hp⟩ := parseAnswerV2_total answer
      exact ⟨_, categoryOfFile_of_llm hm hs ha hp⟩

end Routes

/-! ## What becomes of one file -/

/-- The categories of the first row, if there is a row of each kind. -/
def QueryResult.retrieved (documents : QueryResult) : Option (List Text) :=
  match documents.ids, documents.metadatas, documents.distances with
  | _ :: _, row :: _, _ :: _ => some (row.map (·.category))
  | _, _, _ => none

/-- The file can be read, and the query for its text comes back with these categories. -/
structure Retrieves (w : World) (p : Path) (text : Text) (categories : List Text) : Prop where
  read : w.read p = .ok text
  query : ∃ documents, w.query p text 4 = .ok documents ∧ documents.retrieved = some categories

/-- What becomes of a file, told by the answers to its calls: the label it is yielded with, or the
exception that ends the scan. The last three are the model's, which is asked if the retrieved
categories do not agree. -/
inductive FileOutcome (w : World) (p : Path) : Except Exc Text → Prop
  | unreadable {e} : w.read p = .error e → FileOutcome w p (.error e)
  | queryRaises {text e} : w.read p = .ok text → w.query p text 4 = .error e →
      FileOutcome w p (.error e)
  | noRow {text documents} : w.read p = .ok text → w.query p text 4 = .ok documents →
      documents.retrieved = none →
      FileOutcome w p (.error (.indexError (txt "list index out of range")))
  | agree {text categories c} : Retrieves w p text categories → categories ≠ [] →
      (∀ x ∈ categories, x = c) → FileOutcome w p (.ok (renameEllipticCurves c))
  | modelRaises {text categories e} : Retrieves w p text categories → ¬ Agree categories →
      w.generate p (txt "llama3.1") (promptV2 text categories) = .error e →
      FileOutcome w p (.error e)
  | noResponse {text categories} : Retrieves w p text categories → ¬ Agree categories →
      w.generate p (txt "llama3.1") (promptV2 text categories) = .ok none →
      FileOutcome w p (.error (.attributeError (txt "'dict' object has no attribute 'strip'")))
  | answered {text categories answer label} : Retrieves w p text categories → ¬ Agree categories →
      w.generate p (txt "llama3.1") (promptV2 text categories) = .ok (some answer) →
      parseAnswerV2 answer = .ok label → FileOutcome w p (.ok (renameEllipticCurves label))

section OneFile

variable {w : World} {p : Path} {text : Text} {categories : List Text} {documents : QueryResult}
  {r : Except Exc Text}

theorem response_of_retrieved (h : documents.retrieved = some categories) :
    ∃ m, documents.response = .ok m ∧ m.categoryNames = categories := by
  match documents, h with
  | ⟨_ :: _, _ :: _, _ :: _⟩, rfl => exact ⟨_, rfl, rfl⟩

theorem response_of_not_retrieved (h : documents.retrieved = none) :
    documents.response = .error (.indexError (txt "list index out of range")) := by
  match documents, h with
  | ⟨[], _, _⟩, _ => rfl
  | ⟨_ :: _, [], _⟩, _ => rfl
  | ⟨_ :: _, _ :: _, []⟩, _ => rfl

theorem Retrieves.classifyFile_eq (h : Retrieves w p text categories) :
    ∃ m, classifyFile w p = .ok m ∧ m.categoryNames = categories := by
  obtain ⟨documents, hquery, hretrieved⟩ := h.query
  obtain ⟨m, hm, hnames⟩ := response_of_retrieved hretrieved
  refine ⟨m, ?_, hnames⟩
  rw [CryptoScan.classifyFile_eq, h.read, ok_bind, hquery, ok_bind, hm]

/-- A model that is asked sees the text and the categories. -/
theorem Retrieves.askLlm_eq (h : Retrieves w p text categories) :
    askLlm w p categories =
      w.generate p (txt "llama3.1") (promptV2 text categories) >>= replyText := by
  rw [CryptoScan.askLlm_eq, h.read, ok_bind]

theorem Retrieves.categoryOfFile_of_disagree (h : Retrieves w p text categories)
    (hdis : ¬ Agree categories) :
    categoryOfFile w p =
      w.generate p (txt "llama3.1") (promptV2 text categories) >>= replyText >>= parseAnswerV2 >>=
        fun c => .ok (renameEllipticCurves c) := by
  obtain ⟨m, hm, rfl⟩ := h.classifyFile_eq
  rw [categoryOfFile_eq, hm, ok_bind, decideCategory_of_llm (earlyStop_eq_none_iff.mpr hdis),
    h.askLlm_eq]

/-- The loop body does what the answers say. -/
theorem FileOutcome.eq (h : FileOutcome w p r) : categoryOfFile w p = r := by
  cases h with
  | unreadable hread =>
      rw [categoryOfFile_eq, classifyFile_eq, hread]
      rfl
  | queryRaises hread hquery =>
      rw [categoryOfFile_eq, classifyFile_eq, hread, ok_bind, hquery]
      rfl
  | noRow hread hquery hrow =>
      rw [categoryOfFile_eq, classifyFile_eq, hread, ok_bind, hquery, ok_bind,
        response_of_not_retrieved hrow]
      rfl
  | agree hret hne hall =>
      obtain ⟨m, hm, rfl⟩ := hret.classifyFile_eq
      exact categoryOfFile_of_early hm (earlyStop_eq_some_iff.mpr ⟨hne, hall⟩)
  | modelRaises hret hdis hgen =>
      rw [hret.categoryOfFile_of_disagree hdis, hgen]
      rfl
  | noResponse hret hdis hgen =>
      rw [hret.categoryOfFile_of_disagree hdis, hgen]
      rfl
  | answered hret hdis hgen hparse =>
      rw [hret.categoryOfFile_of_disagree hdis, hgen, ok_bind, replyText_some, ok_bind, hparse,
        ok_bind]

/-- Nothing else can happen. -/
theorem fileOutcome (w : World) (p : Path) : FileOutcome w p (categoryOfFile w p) := by
  suffices h : ∃ r, FileOutcome w p r by
    obtain ⟨r, hr⟩ := h
    rwa [hr.eq]
  cases hread : w.read p with
  | error e => exact ⟨_, .unreadable hread⟩
  | ok text =>
      cases hquery : w.query p text 4 with
      | error e => exact ⟨_, .queryRaises hread hquery⟩
      | ok documents =>
          cases hretrieved : documents.retrieved with
          | none => exact ⟨_, .noRow hread hquery hretrieved⟩
          | some categories =>
              have hret : Retrieves w p text categories := ⟨hread, documents, hquery, hretrieved⟩
              by_cases hagree : Agree categories
              · obtain ⟨c, rest, rfl⟩ := List.exists_cons_of_ne_nil hagree.1
                exact ⟨_, .agree hret hagree.1 fun x hx => hagree.2 x hx c List.mem_cons_self⟩
              · cases hgen : w.generate p (txt "llama3.1") (promptV2 text categories) with
                | error e => exact ⟨_, .modelRaises hret hagree hgen⟩
                | ok response =>
                    cases response with
                    | none => exact ⟨_, .noResponse hret hagree hgen⟩
                    | some answer =>
                        obtain ⟨label, hlabel⟩ := parseAnswerV2_total answer
                        exact ⟨_, .answered hret hagree hgen hlabel⟩

theorem fileOutcome_iff : FileOutcome w p r ↔ categoryOfFile w p = r := by
  refine ⟨FileOutcome.eq, ?_⟩
  rintro rfl
  exact fileOutcome w p

/-- A file has a category exactly if the outside calls made for it return. -/
theorem callsReturn_iff : CallsReturn w p ↔ ∃ c, categoryOfFile w p = .ok c := by
  refine ⟨CallsReturn.category, ?_⟩
  rintro ⟨label, hlabel⟩
  cases fileOutcome_iff.mpr hlabel with
  | agree hret hne hall =>
      obtain ⟨m, hm, rfl⟩ := hret.classifyFile_eq
      refine ⟨m, hm, fun hnone => ?_⟩
      rw [earlyStop_eq_some_iff.mpr ⟨hne, hall⟩] at hnone
      cases hnone
  | @answered text categories answer label hret hdis hgen hparse =>
      obtain ⟨m, hm, rfl⟩ := hret.classifyFile_eq
      refine ⟨m, hm, fun _ => ⟨answer, ?_⟩⟩
      rw [hret.askLlm_eq, hgen, ok_bind, replyText_some]

theorem FileOutcome.callsReturn {label : Text} (h : FileOutcome w p (.ok label)) : CallsReturn w p :=
  callsReturn_iff.mpr ⟨label, h.eq⟩

end OneFile

/-! ## The scan as a plain loop -/

section PlainLoop

variable {σ : Type} {w : World} {directory : Path → Option Dir} {root : Path} {d : Dir}

/-- The pair that is yielded for a file, if its calls return. -/
def labelFile (w : World) (filePath : Path) : Except Exc (Path × Text) := do
  let category ← categoryOfFile w filePath
  pure (filePath, category)

/-- The files below a folder, in the order of the walk. -/
def filesBelow (directory : Path → Option Dir) (root : Path) : List Path :=
  (osWalk directory root).flatMap Visit.paths

theorem osWalk_of_directory (hd : directory root = some d) :
    osWalk directory root = walk root d.listing := by
  unfold osWalk
  rw [hd]

theorem filesBelow_of_directory (hd : directory root = some d) :
    filesBelow directory root = d.listing.files.map (render root) := by
  unfold filesBelow
  rw [osWalk_of_directory hd]
  exact walk_paths root d.listing

theorem filesBelow_of_none (hd : directory root = none) : filesBelow directory root = [] := by
  unfold filesBelow osWalk
  rw [hd]
  rfl

/-- No file comes up twice. -/
theorem filesBelow_nodup (directory : Path → Option Dir) (root : Path) :
    (filesBelow directory root).Nodup := by
  cases hd : directory root with
  | none =>
      rw [filesBelow_of_none hd]
      exact List.nodup_nil
  | some d =>
      rw [filesBelow_of_directory hd]
      exact rendered_nodup root d.wellFormed

/-- What the loop with this body does to one folder of the walk. -/
def visitFiles (w : World) (body : Path × Text → σ → σ × Except Exc Unit) (v : Visit) (s : σ) :
    σ × Except Exc Unit :=
  forList (fetchThen (labelFile w) body) v.paths s

theorem forEach_scanFile (c : Gen.Consumer (Path × Text) Exc σ) (p : Path) (s : σ) :
    (scanFile w p).forEach c s = fetchThen (labelFile w) c.body p s := by
  unfold scanFile fetchThen labelFile
  rw [Gen.forEach_bind, Gen.forEach_ofExcept]
  cases categoryOfFile w p with
  | error e => rfl
  | ok category => exact Gen.forEach_yield c _ s

theorem calls_scanFile (c : Gen.Consumer (Path × Text) Exc σ) (p : Path) (s : σ) :
    (scanFile w p).calls c s = [] := by
  unfold scanFile
  rw [Gen.calls_bind, Gen.forEach_ofExcept, Gen.calls_ofExcept]
  cases categoryOfFile w p with
  | error e => rfl
  | ok category => exact Gen.calls_yield c _ s

theorem forEach_files (c : Gen.Consumer (Path × Text) Exc σ) (v : Visit) (s : σ) :
    (Gen.each v.fileNames fun f => scanFile w (join v.dir f)).forEach c s =
      visitFiles w c.body v s := by
  unfold visitFiles Visit.paths
  rw [Gen.forEach_each, forList_map]
  exact forList_congr (fun f _ s => forEach_scanFile c _ s) s

theorem calls_files (c : Gen.Consumer (Path × Text) Exc σ) (v : Visit) (s : σ) :
    (Gen.each v.fileNames fun f => scanFile w (join v.dir f)).calls c s = [] := by
  rw [Gen.calls_each fun _ => []]
  · exact List.flatMap_eq_nil_iff.mpr fun _ _ => rfl
  · intro f s
    rw [calls_scanFile]
    split <;> rfl

/-- The calls on sub-folder names do nothing to the loop. -/
theorem forEach_subFolders (c : Gen.Consumer (Path × Text) Exc σ) (names : List Text) (s : σ) :
    (Gen.each names fun n => (Gen.call (.scanFolder n) : Gen (Path × Text) Call Exc Unit)).forEach
      c s = (s, .ok ()) := by
  rw [Gen.forEach_each]
  exact forList_skip names s

theorem calls_subFolders (c : Gen.Consumer (Path × Text) Exc σ) (names : List Text) (s : σ) :
    (Gen.each names fun n => (Gen.call (.scanFolder n) : Gen (Path × Text) Call Exc Unit)).calls
      c s = names.map .scanFolder := by
  rw [Gen.calls_each (fun n => [Call.scanFolder n]) fun _ _ => rfl,
    completed_of_ok, List.map_eq_flatMap]
  rw [← Gen.forEach_each, forEach_subFolders]

theorem forEach_scanVisit (c : Gen.Consumer (Path × Text) Exc σ) (v : Visit) (s : σ) :
    (scanVisit w v).forEach c s = visitFiles w c.body v s := by
  unfold scanVisit
  rw [Gen.forEach_bind, forEach_files]
  simp only [forEach_subFolders]
  exact andThen_return _

/-- The sub-folders are called upon after the files, if these have gone through. -/
theorem calls_scanVisit (c : Gen.Consumer (Path × Text) Exc σ) (v : Visit) (s : σ) :
    (scanVisit w v).calls c s =
      match (visitFiles w c.body v s).2 with
      | .ok _ => v.dirNames.map .scanFolder
      | .error _ => [] := by
  unfold scanVisit
  rw [Gen.calls_bind, calls_files, forEach_files, List.nil_append]
  rcases visitFiles w c.body v s with ⟨s', e | u⟩
  · rfl
  · exact calls_subFolders c v.dirNames s'

/-- **What a loop over a scan does**, whatever its body is. -/
theorem forEach_scanFolder (w : World) (root : Path) (c : Gen.Consumer (Path × Text) Exc σ)
    (s : σ) :
    (scanFolder w root).forEach c s =
      forList (fetchThen (labelFile w) c.body) (filesBelow w.directory root) s := by
  unfold scanFolder filesBelow
  rw [Gen.forEach_each, forList_flatMap]
  exact forList_congr (fun v _ s => forEach_scanVisit c v s) s

/-- **The calls it makes**: one for each sub-folder name of each folder whose files have all gone
through. -/
theorem calls_scanFolder (w : World) (root : Path) (c : Gen.Consumer (Path × Text) Exc σ) (s : σ) :
    (scanFolder w root).calls c s =
      ((completed (visitFiles w c.body) (osWalk w.directory root) s).flatMap Visit.dirNames).map
        .scanFolder := by
  have hvisit : (fun v => (scanVisit w v).forEach c) = visitFiles w c.body :=
    funext fun v => funext (forEach_scanVisit c v)
  unfold scanFolder
  rw [Gen.calls_each fun v => v.dirNames.map .scanFolder, hvisit, List.map_flatMap]
  intro v s
  rw [calls_scanVisit, forEach_scanVisit]
  cases (visitFiles w c.body v s).2 <;> rfl

/-- The values a scan yields, and how it ends. -/
theorem scanFolder_outputs (w : World) (root : Path) :
    (scanFolder w root).outputs = fetched (labelFile w) (filesBelow w.directory root) ∧
      (scanFolder w root).result =
        firstError (fetchEnds (labelFile w)) (filesBelow w.directory root) := by
  let c : Gen.Consumer (Path × Text) Exc (List (Path × Text)) := Gen.collector
  have hwrites : ∀ y ∈ fetched (labelFile w) (filesBelow w.directory root), Writes (c.body y) :=
    fun _ _ _ => rfl
  have hloop : (scanFolder w root).forEach c [] =
      (fetched (labelFile w) (filesBelow w.directory root),
        firstError (fetchEnds (labelFile w)) (filesBelow w.directory root)) := by
    rw [forEach_scanFolder, forList_fetchThen, forList_of_ok hwrites fun _ _ => rfl]
    show ([] ++ List.flatMap (fun y => [y]) _, _) = _
    rw [List.nil_append, List.flatMap_singleton']
  rw [Gen.forEach_collector] at hloop
  exact Prod.mk.inj hloop

/-- A pair that is yielded, by a scan that finishes or not, is a file with its category. -/
theorem of_mem_outputs {p : Path} {label : Text} (h : (p, label) ∈ (scanFolder w root).outputs) :
    p ∈ filesBelow w.directory root ∧ FileOutcome w p (.ok label) := by
  rw [(scanFolder_outputs w root).1] at h
  obtain ⟨q, hq, hlabel⟩ := exists_of_mem_fetched h
  obtain ⟨c, hc, hpair⟩ := exists_of_bind_eq_ok hlabel
  cases hpair
  exact ⟨hq, fileOutcome_iff.mpr hc⟩

end PlainLoop

/-! ## What a scan yields -/

section Scan

variable {w : World} {root : Path} {d : Dir}

/-- The category of a file whose calls return. -/
def categoryOr (w : World) (filePath : Path) : Text :=
  match categoryOfFile w filePath with
  | .ok c => c
  | .error _ => []

/-- The pair that is yielded for a file. -/
def labelled (w : World) (filePath : Path) : Path × Text := (filePath, categoryOr w filePath)

/-- The file has a category, or the exception of its calls. -/
theorem labelFile_cases (w : World) (p : Path) :
    (∃ c, categoryOfFile w p = .ok c ∧ labelFile w p = .ok (labelled w p)) ∨
      ∃ e, categoryOfFile w p = .error e ∧ labelFile w p = .error e := by
  unfold labelFile labelled categoryOr
  cases categoryOfFile w p with
  | ok c => exact .inl ⟨c, rfl, rfl⟩
  | error e => exact .inr ⟨e, rfl, rfl⟩

theorem labelFile_of_callsReturn {p : Path} (h : CallsReturn w p) :
    labelFile w p = .ok (labelled w p) := by
  obtain ⟨c, hc⟩ := h.category
  unfold labelFile labelled categoryOr
  rw [hc]
  rfl

/-- **A scan whose calls return yields the files**, each with its category. -/
theorem scanFolder_of_ok (hok : ∀ p ∈ filesBelow w.directory root, CallsReturn w p) :
    (scanFolder w root).outputs = (filesBelow w.directory root).map (labelled w) ∧
      (scanFolder w root).result = .ok () := by
  obtain ⟨hout, hresult⟩ := scanFolder_outputs w root
  rw [hout, hresult]
  exact fetched_of_ok fun p hp => labelFile_of_callsReturn (hok p hp)

/-- The same, for the files of a tree. -/
theorem scanFolder_spec (hd : w.directory root = some d)
    (hcalls : ∀ p, d.listing.HasFile p → CallsReturn w (render root p)) :
    (scanFolder w root).result = .ok () ∧
      (scanFolder w root).outputs = (d.listing.files.map (render root)).map (labelled w) := by
  have hok : ∀ p ∈ filesBelow w.directory root, CallsReturn w p := by
    intro p hp
    rw [filesBelow_of_directory hd] at hp
    obtain ⟨q, hq, rfl⟩ := List.mem_map.mp hp
    exact hcalls q (Listing.mem_files_iff.mp hq)
  obtain ⟨hout, hresult⟩ := scanFolder_of_ok hok
  rw [filesBelow_of_directory hd] at hout
  exact ⟨hresult, hout⟩

theorem map_fst_labelled (w : World) (ps : List Path) :
    (ps.map (labelled w)).map Prod.fst = ps := by
  rw [List.map_map]
  exact List.map_id ps

/-- **Completeness and uniqueness of a scan.** If the outside calls return, the loop over
`scan_folder(root)` ends normally and sees the path of every regular file of the tree exactly once
and no other path. The heap then holds one object for each sub-folder name that the walk reports, in
order, and all of them are still waiting to be started. -/
theorem scan_complete (w : World) (root : Path) (d : Dir) (hd : w.directory root = some d)
    (hcalls : ∀ p, d.listing.HasFile p → CallsReturn w (render root p)) :
    ∃ (ys : List (Path × Text)) (n₀ : Nat),
      (∀ n ≥ n₀,
        Gen.forLoop (bodies w) Gen.collector n [.fresh (.scanFolder root)] 0 [] =
          (ys, some (.ok ()),
            .closed :: ((walk root d.listing).flatMap Visit.dirNames).map
              fun name => .fresh (.scanFolder name))) ∧
      (∀ p, d.listing.HasFile p → (ys.map Prod.fst).count (render root p) = 1) ∧
      ∀ q ∈ ys.map Prod.fst, ∃ p, d.listing.HasFile p ∧ q = render root p := by
  obtain ⟨hr, ho⟩ := scanFolder_spec hd hcalls
  have hpaths : (scanFolder w root).outputs.map Prod.fst = d.listing.files.map (render root) := by
    rw [ho, map_fst_labelled]
  have hloop : (scanFolder w root).forEach Gen.collector [] =
      ((scanFolder w root).outputs, .ok ()) := by
    rw [Gen.forEach_collector, hr, List.nil_append]
  refine ⟨(scanFolder w root).outputs, (scanFolder w root).emits + 1, ?_, ?_, ?_⟩
  · -- the machine, with one `next` more than there are values
    intro n hn
    let main : Gen.Obj (Path × Text) Call Exc := .fresh (.scanFolder root)
    have hfuel : (main.body (bodies w)).emits < n := Nat.lt_of_succ_le hn
    obtain ⟨o, hrun, hclosed⟩ :=
      Gen.forLoop_eq_forEach Gen.collector (rfl : [main][0]? = some main) hfuel []
    -- every folder of the walk is gone through
    have hvisits : completed (visitFiles w Gen.collector.body) (osWalk w.directory root) [] =
        walk root d.listing := by
      rw [completed_of_ok, osWalk_of_directory hd]
      have hflat := forEach_scanFolder w root Gen.collector []
      unfold filesBelow at hflat
      rw [forList_flatMap, hloop] at hflat
      exact (congrArg Prod.snd hflat).symm
    have hbody : main.body (bodies w) = scanFolder w root := rfl
    rw [hbody, hloop] at hclosed
    rw [hrun, hbody, hloop, calls_scanFolder, hvisits, hclosed rfl, List.map_map]
    rfl
  · intro p hp
    rw [hpaths]
    apply List.count_eq_one_of_mem (rendered_nodup root d.wellFormed)
    exact List.mem_map_of_mem (Listing.mem_files_iff.mpr hp)
  · intro q hq
    rw [hpaths] at hq
    obtain ⟨p, hp, rfl⟩ := List.mem_map.mp hq
    exact ⟨p, Listing.mem_files_iff.mp hp, rfl⟩

def demoFolder : Name := ⟨['R', 'S', 'A'], by decide, by decide⟩

def demoSubfolder : Name := ⟨['D', 'S', 'A'], by decide, by decide⟩

def demoFile : Name := ⟨['k'], by decide, by decide⟩

/-- A folder with one sub-folder `RSA`; in it a file `k` and a sub-folder `DSA`, which has a file `k`
of its own. -/
def demoTree : Dir where
  listing := .dir demoFolder (.file demoFile (.dir demoSubfolder (.file demoFile .nil) .nil)) .nil
  wellFormed := by decide

/-- A world that holds `demoTree` at `e`. What is retrieved for the outer file agrees, what is
retrieved for the inner one does not; the model then says `DSA`. -/
def demoRoutes : World where
  directory p := if p = ['e'] then some demoTree else none
  read _ := .ok []
  query file _ _ :=
    if file = ['e', '/', 'R', 'S', 'A', '/', 'k'] then
      .ok ⟨[[]], [[⟨['R', 'S', 'A']⟩, ⟨['R', 'S', 'A']⟩]], [[]]⟩
    else .ok ⟨[[]], [[⟨['R', 'S', 'A']⟩, ⟨['D', 'S', 'A']⟩]], [[]]⟩
  generate _ _ _ := .ok (some ['D', 'S', 'A'])
  chat _ _ _ := .ok ⟨none, none⟩

theorem demoRoutes_callsReturn (p : Path) : CallsReturn demoRoutes p := by
  by_cases hp : p = ['e', '/', 'R', 'S', 'A', '/', 'k']
  · subst hp
    exact ⟨⟨[⟨['R', 'S', 'A']⟩, ⟨['R', 'S', 'A']⟩], [], []⟩, rfl, fun _ => ⟨['D', 'S', 'A'], rfl⟩⟩
  · refine ⟨⟨[⟨['R', 'S', 'A']⟩, ⟨['D', 'S', 'A']⟩], [], []⟩, ?_, fun _ => ⟨['D', 'S', 'A'], rfl⟩⟩
    have hquery : demoRoutes.query p [] 4 =
        .ok ⟨[[]], [[⟨['R', 'S', 'A']⟩, ⟨['D', 'S', 'A']⟩]], [[]]⟩ := if_neg hp
    have hread : demoRoutes.read p = .ok [] := rfl
    rw [classifyFile_eq, hread, ok_bind, hquery]
    rfl

theorem scan_complete_demo :
    ∃ (ys : List (Path × Text)) (n₀ : Nat),
      (∀ n ≥ n₀,
        Gen.forLoop (bodies demoRoutes) Gen.collector n [.fresh (.scanFolder ['e'])] 0 [] =
          (ys, some (.ok ()),
            [.closed, .fresh (.scanFolder ['R', 'S', 'A']), .fresh (.scanFolder ['D', 'S', 'A'])])) ∧
      (ys.map Prod.fst).count ['e', '/', 'R', 'S', 'A', '/', 'k'] = 1 ∧
      (ys.map Prod.fst).count ['e', '/', 'R', 'S', 'A', '/', 'D', 'S', 'A', '/', 'k'] = 1 := by
  obtain ⟨ys, n₀, hloop, hcount, -⟩ :=
    scan_complete demoRoutes ['e'] demoTree rfl fun p _ => demoRoutes_callsReturn _
  exact ⟨ys, n₀, hloop, hcount _ (.down .here), hcount _ (.down (.skipFile (.down .here)))⟩

/-- A folder with one sub-folder `RSA`, and in it one file `k`. -/
def demoDir : Dir where
  listing := .dir demoFolder (.file demoFile .nil) .nil
  wellFormed := by decide

/-- A world that holds `demoDir` at `e`, retrieves the categories `cats` for every file and has the
model answer `answer` to every prompt. -/
def demoWorld (cats : List Text) (answer : Text) : World where
  directory p := if p = ['e'] then some demoDir else none
  read _ := .ok []
  query _ _ _ := .ok ⟨[[]], [cats.map Metadata.mk], [[]]⟩
  generate _ _ _ := .ok (some answer)
  chat _ _ _ := .ok ⟨none, some answer⟩

theorem demoWorld_callsReturn (cats : List Text) (answer : Text) (p : Path) :
    CallsReturn (demoWorld cats answer) p :=
  ⟨⟨cats.map Metadata.mk, [], []⟩, rfl, fun _ => ⟨answer, rfl⟩⟩

end Scan

end CryptoScan
