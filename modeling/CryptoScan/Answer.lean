import CryptoScan.Vocabulary
import CryptoScan.Categorize

/-!
# `run.py`: asking the model, and reading its answer

Both `get_true_category` functions end in the same block: strip the answer, search it with two
regexes, and return group 1 of the first match — or the answer itself. The second regex has no
group, so the block would crash if it ever were the one to match. It is not: each of its words
starts with `SHA`, which the first regex looks for (`sha_search_isSome`).

The block is `parseBlock`, with the vocabulary and the mark put in front of a match as parameters.
Its two spec lemmas say it all: `parseBlock_of_absent` and `parseBlock_of_firstAt`. They hold for
every vocabulary that is `Searchable`, so for every reordering of the categories as well.
-/

namespace CryptoScan

open Python

/-! ## The parsing block -/

/-- `re.compile`, which raises on a pattern it cannot read. -/
def reCompile (p : Text) : Except Exc Pattern :=
  match compile p with
  | some r => .ok r
  | none => .error (.reError p)

/-- The pattern `(c₁|c₂|…)`. -/
def categoryPattern (cats : List Text) : Text := '(' :: (['|'].intercalate cats ++ [')'])

/-- The second pattern, which has no group. -/
def shaPattern : Text := txt "SHA\\-256|SHA256|SHA\\-1|SHA1|SHA\\-512|SHA512|SHA\\-3|SHA3"

def regexes (cats : List Text) : Except Exc (List Pattern) := do
  let category ← reCompile (categoryPattern cats)
  let sha ← reCompile shaPattern
  pure [category, sha]

/-- `[regex.search(answer.strip()) for regex in regexes]`. -/
def answerMatches (rs : List Pattern) (answer : Text) : List (Option Match) :=
  rs.map fun r => r.search (strip answer)

/-- What is returned for a match: its group 1, behind the mark. -/
def matchLabel (mark : Text) (m : Match) : Except Exc Text := do
  match ← m.group 1 with
  | some g => pure (mark ++ strip g)
  | none => throw (.attributeError (txt "'NoneType' object has no attribute 'strip'"))

def parseBlock (cats : List Text) (mark answer : Text) : Except Exc Text := do
  let rs ← regexes cats
  let found := answerMatches rs answer
  if found.any Option.isSome then
    match found.findSome? id with
    | some m => matchLabel mark m
    | none => throw .stopIteration
  else pure (strip answer)

/-- The mark of a label that the model decided. -/
def llmMark : Text := txt "LLM "

/-- The block at the end of `get_true_category_v2_codellama`. -/
def parseAnswerV2 (answer : Text) : Except Exc Text := parseBlock possibleCategories llmMark answer

/-- The block at the end of `get_true_category`. -/
def parseAnswer (answer : Text) : Except Exc Text := parseBlock possibleCategories [] answer

/-! ## Asking the model -/

/-- The text a reply holds; a missing key is the default `{}`, which has no `strip`. -/
def replyText : Option Text → Except Exc Text
  | some answer => .ok answer
  | none => .error (.attributeError (txt "'dict' object has no attribute 'strip'"))

@[simp] theorem replyText_some (answer : Text) : replyText (some answer) = .ok answer := rfl

section Ask

variable {m : Type → Type} [Monad m] [MonadExcept Exc m]

/-- The answer of `get_true_category_v2_codellama`'s call to the model. -/
def Calls.askLlm (calls : Calls m) (filePath : Path) (categories : List Text) : m Text := do
  let question ← calls.read filePath
  let response ← calls.generate (txt "llama3.1") (promptV2 question categories)
  MonadExcept.ofExcept (replyText response)

def Calls.getTrueCategoryV2Codellama (calls : Calls m) (filePath : Path) (categories : List Text) :
    m Text := do
  let answer ← calls.askLlm filePath categories
  MonadExcept.ofExcept (parseAnswerV2 answer)

end Ask

def askLlm (w : World) (filePath : Path) (categories : List Text) : Except Exc Text :=
  (w.calls filePath).askLlm filePath categories

def getTrueCategoryV2Codellama (w : World) (filePath : Path) (categories : List Text) :
    Except Exc Text :=
  (w.calls filePath).getTrueCategoryV2Codellama filePath categories

theorem askLlm_eq (w : World) (filePath : Path) (categories : List Text) :
    askLlm w filePath categories =
      w.read filePath >>= fun question =>
        w.generate filePath (txt "llama3.1") (promptV2 question categories) >>= replyText := by
  unfold askLlm Calls.askLlm
  simp only [ofExcept_eq_self]
  rfl

theorem getTrueCategoryV2Codellama_eq (w : World) (filePath : Path) (categories : List Text) :
    getTrueCategoryV2Codellama w filePath categories =
      askLlm w filePath categories >>= parseAnswerV2 := by
  unfold getTrueCategoryV2Codellama Calls.getTrueCategoryV2Codellama
  simp only [ofExcept_eq_self]
  rfl

/-- The parameters of `identify_algorithm`; the last has a default. -/
def parameters : List Text := [txt "code", txt "algorithm_name", txt "explanation"]

/-- `identify_algorithm(**args)[0]`. Python looks for unknown keywords before missing ones. -/
def identifyAlgorithm (args : Dict Text Text) : Except Exc Text :=
  match args.keys.find? (!parameters.contains ·) with
  | some k => .error (.typeError
      (txt "identify_algorithm() got an unexpected keyword argument '" ++ k ++ txt "'"))
  | none =>
      match args.get? (txt "code"), args.get? (txt "algorithm_name") with
      | some _, some algorithmName => .ok algorithmName
      | none, some _ => .error (.typeError
          (txt "identify_algorithm() missing 1 required positional argument: 'code'"))
      | some _, none => .error (.typeError
          (txt "identify_algorithm() missing 1 required positional argument: 'algorithm_name'"))
      | none, none => .error (.typeError (txt
          "identify_algorithm() missing 2 required positional arguments: 'code' and 'algorithm_name'"))

/-- A tool call: rename a `description` to `explanation`, then call the function. -/
def runToolCall (call : ToolCall) : Except Exc Text :=
  if call.name = txt "identify_algorithm" then
    match call.arguments.get? (txt "description") with
    | some desc =>
        identifyAlgorithm
          ((call.arguments.erase (txt "description")).set (txt "explanation") desc)
    | none => identifyAlgorithm call.arguments
  else .error (.keyError call.name)

/-- The categories are not used: this prompt does not mention them. -/
def getTrueCategory (w : World) (filePath : Path) (_categories : List Text) :
    Except Exc Text := do
  let question ← w.read filePath
  let message ← w.chat filePath (txt "llama3.1") (prompt question)
  match message.toolCalls with
  | some (call :: _) => runToolCall call   -- the loop returns in its first round
  | _ =>
      let answer ← replyText message.content
      parseAnswer answer

/-! ## What the block computes -/

/-- A vocabulary the block can search for. -/
structure Searchable (ws : List Text) : Prop where
  ne_nil : ws ≠ []
  plain : ∀ w ∈ ws, Plain w
  solid : ∀ w ∈ ws, Solid isSpace w
  prefixFree : PrefixFree ws
  sha : txt "SHA" ∈ ws

theorem possibleCategories_searchable : Searchable possibleCategories :=
  ⟨by rw [possibleCategories_eq]; simp, possibleCategories_plain, possibleCategories_solid,
    possibleCategories_prefixFree, Category.value_mem .sha⟩

theorem Searchable.of_perm {ws vs : List Text} (h : Searchable ws) (hp : vs.Perm ws) :
    Searchable vs where
  ne_nil := fun hnil => h.ne_nil (List.nil_perm.mp (hnil ▸ hp))
  plain := fun w hw => h.plain w (hp.mem_iff.mp hw)
  solid := fun w hw => h.solid w (hp.mem_iff.mp hw)
  prefixFree := h.prefixFree.of_mem_iff fun _ => hp.mem_iff.symm
  sha := hp.mem_iff.mpr h.sha

/-- The words of the second pattern. -/
def shaWords : List Text :=
  [['S', 'H', 'A', '-', '2', '5', '6'], ['S', 'H', 'A', '2', '5', '6'], ['S', 'H', 'A', '-', '1'],
    ['S', 'H', 'A', '1'], ['S', 'H', 'A', '-', '5', '1', '2'], ['S', 'H', 'A', '5', '1', '2'],
    ['S', 'H', 'A', '-', '3'], ['S', 'H', 'A', '3']]

theorem shaPattern_eq : shaPattern =
    ['S', 'H', 'A', '\\', '-', '2', '5', '6', '|', 'S', 'H', 'A', '2', '5', '6', '|',
      'S', 'H', 'A', '\\', '-', '1', '|', 'S', 'H', 'A', '1', '|',
      'S', 'H', 'A', '\\', '-', '5', '1', '2', '|', 'S', 'H', 'A', '5', '1', '2', '|',
      'S', 'H', 'A', '\\', '-', '3', '|', 'S', 'H', 'A', '3'] := by
  rfl

theorem compile_shaPattern : compile shaPattern = some ⟨.words shaWords, 0⟩ := by
  rw [shaPattern_eq]
  rfl

theorem sha_prefix_shaWords : ∀ v ∈ shaWords, txt "SHA" <+: v := by
  have hsha : txt "SHA" = ['S', 'H', 'A'] := rfl
  rw [hsha]
  decide

section Block

variable {ws : List Text} {s t mark c : Text} {i : Nat}

/-- The compiled category pattern. -/
def categoryRegex (ws : List Text) : Pattern := ⟨.seq .eps (.group 1 (.words ws)), 1⟩

/-- The compiled second pattern. -/
def shaRegex : Pattern := ⟨.words shaWords, 0⟩

theorem categoryRegex_spells (h : Searchable ws) :
    (categoryRegex ws).regex.Spells ws fun w => [(1, w)] := by
  simpa [categoryRegex] using (Regex.spells_words h.ne_nil).group 1

theorem shaRegex_spells : shaRegex.regex.Spells shaWords fun _ => [] := by
  have hne : shaWords ≠ [] := List.cons_ne_nil _ _
  have hspells := Regex.spells_words hne
  exact hspells

theorem regexes_eq (h : Searchable ws) : regexes ws = .ok [categoryRegex ws, shaRegex] := by
  have hcat : compile (categoryPattern ws) = some (categoryRegex ws) :=
    compile_group_words h.ne_nil h.plain
  unfold regexes reCompile
  rw [hcat, compile_shaPattern]
  rfl

/-- **Where the second regex matches, the first one does.** -/
theorem sha_search_isSome (h : Searchable ws) (hs : (shaRegex.search t).isSome) :
    ((categoryRegex ws).search t).isSome := by
  rw [Option.isSome_iff_ne_none] at hs ⊢
  intro hnone
  apply hs
  rw [Pattern.search_eq_none_iff shaRegex_spells]
  rw [Pattern.search_eq_none_iff (categoryRegex_spells h)] at hnone
  intro v hv hinf
  exact hnone _ h.sha ((sha_prefix_shaWords v hv).isInfix.trans hinf)

/-- A match of the first regex is labelled by the word it found. -/
theorem matchLabel_category (h : Searchable ws) {m : Match}
    (hm : (categoryRegex ws).search t = some m) : matchLabel mark m = .ok (mark ++ m.text) := by
  obtain ⟨hfirst, hcap, hgroups⟩ := Pattern.firstAt_of_search (categoryRegex_spells h) hm
  have hgroup : m.group 1 = .ok (some m.text) := by
    simp [Match.group, hgroups, hcap, categoryRegex]
  have hstrip : strip m.text = m.text := stripBy_eq_self (h.solid _ hfirst.mem).2
  unfold matchLabel
  rw [hgroup]
  show Except.ok (mark ++ strip m.text) = _
  rw [hstrip]

/-- No word of the vocabulary in the answer: it is returned as it is, stripped. -/
theorem parseBlock_of_absent (h : Searchable ws) (habs : ∀ w ∈ ws, ¬ w <:+: strip s) :
    parseBlock ws mark s = .ok (strip s) := by
  have hcat : (categoryRegex ws).search (strip s) = none :=
    (Pattern.search_eq_none_iff (categoryRegex_spells h)).mpr habs
  have hsha : shaRegex.search (strip s) = none := by
    by_contra hne
    have hsome := sha_search_isSome h (Option.isSome_iff_ne_none.mpr hne)
    rw [hcat] at hsome
    cases hsome
  unfold parseBlock
  rw [regexes_eq h]
  show (if (answerMatches [categoryRegex ws, shaRegex] s).any Option.isSome then _ else _) = _
  simp only [answerMatches, List.map_cons, List.map_nil, hcat, hsha, List.any_cons, List.any_nil,
    Option.isSome_none, Bool.or_self, Bool.false_eq_true, ↓reduceIte]
  rfl

/-- A first word in the answer: it is returned behind the mark. -/
theorem parseBlock_of_firstAt (h : Searchable ws) (hf : FirstAt ws (strip s) i c) :
    parseBlock ws mark s = .ok (mark ++ c) := by
  obtain ⟨m, hm⟩ : ∃ m, (categoryRegex ws).search (strip s) = some m := by
    rw [← Option.isSome_iff_exists, Option.isSome_iff_ne_none]
    intro hnone
    exact (Pattern.search_eq_none_iff (categoryRegex_spells h)).mp hnone c hf.mem hf.occurs.isInfix
  obtain ⟨hfirst, -, -⟩ := Pattern.firstAt_of_search (categoryRegex_spells h) hm
  have hmc : m.text = c := (FirstAt.unique h.prefixFree hfirst hf).2
  unfold parseBlock
  rw [regexes_eq h]
  show (if (answerMatches [categoryRegex ws, shaRegex] s).any Option.isSome then _ else _) = _
  simp only [answerMatches, List.map_cons, hm, List.any_cons, Option.isSome_some, Bool.true_or,
    ↓reduceIte, List.findSome?_cons, id_eq]
  rw [matchLabel_category h hm, hmc]

/-- The two cases are all there is. -/
theorem absent_or_firstAt (ws : List Text) (t : Text) :
    (∀ w ∈ ws, ¬ w <:+: t) ∨ ∃ i c, FirstAt ws t i c := by
  by_cases h : ∃ w ∈ ws, w <:+: t
  · exact Or.inr (exists_firstAt h)
  · left
    intro w hw hinf
    exact h ⟨w, hw, hinf⟩

/-- Neither a word's position in the list nor the order of the list matters. -/
theorem parseBlock_perm {vs : List Text} (h : Searchable ws) (hp : vs.Perm ws) (mark s : Text) :
    parseBlock vs mark s = parseBlock ws mark s := by
  have hmem : ∀ u, u ∈ ws ↔ u ∈ vs := fun _ => hp.mem_iff.symm
  rcases absent_or_firstAt ws (strip s) with habs | ⟨i, c, hf⟩
  · rw [parseBlock_of_absent h habs,
      parseBlock_of_absent (h.of_perm hp) fun w hw => habs w (hp.mem_iff.mp hw)]
  · rw [parseBlock_of_firstAt h hf, parseBlock_of_firstAt (h.of_perm hp) (hf.of_mem_iff hmem)]

end Block

end CryptoScan
