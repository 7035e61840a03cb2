import CryptoScan.Answer

/-!
# Correctness of the answer parser

* **The parser** (`parseAnswer_correct`) — the block never raises; it returns the stripped answer
  when no category occurs in it, and otherwise the one category that starts first, behind the mark.
  Reordering the categories changes nothing.
* **The vocabularies** (`promptName_parses_iff`) — an answer that names one category of the prompt
  is recognised exactly when the prompt spells that category as the parser does. Three names have
  drifted apart: `CAMELLIA`, `CHACHA20` and `NO_CRYPTO`.

Both rest on the two cases of `Answer.lean` (no word, or a first word) and on finite facts about the
vocabularies, checked letter by letter.
-/

namespace CryptoScan

open Python

/-! ## The parser -/

section Parser

variable {s c : Text} {i : Nat}

theorem parseAnswerV2_of_firstAt (hf : FirstAt possibleCategories (strip s) i c) :
    parseAnswerV2 s = .ok (llmMark ++ c) :=
  parseBlock_of_firstAt possibleCategories_searchable hf

theorem parseAnswer_of_firstAt (hf : FirstAt possibleCategories (strip s) i c) :
    parseAnswer s = .ok c :=
  parseBlock_of_firstAt possibleCategories_searchable hf

/-- The parser has an answer for every text. -/
theorem parseAnswerV2_total (s : Text) : ∃ r, parseAnswerV2 s = .ok r := by
  rcases absent_or_firstAt possibleCategories (strip s) with habs | ⟨i, c, hf⟩
  · exact ⟨_, parseBlock_of_absent possibleCategories_searchable habs⟩
  · exact ⟨_, parseAnswerV2_of_firstAt hf⟩

/-- No category starts inside the mark. -/
theorem not_prefix_llmMark :
    ∀ v ∈ possibleCategories, ∀ j < 4, ¬ v.take (4 - j) <+: llmMark.drop j := by
  have hmark : llmMark = ['L', 'L', 'M', ' '] := rfl
  rw [possibleCategories_eq, hmark]
  decide

/-- In a marked category the category itself is what starts first. -/
theorem firstAt_marked (hc : c ∈ possibleCategories) :
    FirstAt possibleCategories (llmMark ++ c) 4 c := by
  have hlen : llmMark.length = 4 := rfl
  refine ⟨hc, ?_, ?_⟩
  · show c <+: (llmMark ++ c).drop 4
    rw [← hlen, List.drop_left]
  · intro j hj v hv hocc
    apply not_prefix_llmMark v hv j hj
    have hpre : v <+: llmMark.drop j ++ c := by
      rwa [OccursAt, List.drop_append_of_le_length (by omega)] at hocc
    have htake := hpre.take (4 - j)
    rwa [List.take_left' (by simp [hlen])] at htake

/-- An answer that is a marked category already is returned unchanged. -/
theorem parseAnswerV2_marked (hc : c ∈ possibleCategories) (hs : strip s = llmMark ++ c) :
    parseAnswerV2 s = .ok (strip s) := by
  rw [hs]
  apply parseAnswerV2_of_firstAt
  rw [hs]
  exact firstAt_marked hc

/-- **The answer parser.** It never raises, since the regex without a group only matches where the
other one does. It returns the stripped answer when no category occurs in it — or when the answer
is a marked category to begin with. Otherwise it returns the one category that starts at the least
index at which any does, marked; `get_true_category` returns the same without the mark. The order
of the categories has no influence. -/
theorem parseAnswer_correct (s : Text) :
    (∃ r₁ r₂, regexes possibleCategories = .ok [r₁, r₂] ∧ r₂.groups = 0 ∧
      ((r₂.search (strip s)).isSome → (r₁.search (strip s)).isSome)) ∧
    (∃ r, parseAnswerV2 s = .ok r) ∧
    (parseAnswerV2 s = .ok (strip s) ↔
      (∀ c ∈ possibleCategories, ¬ c <:+: strip s) ∨
        ∃ c ∈ possibleCategories, strip s = llmMark ++ c) ∧
    ((∃ c ∈ possibleCategories, c <:+: strip s) →
      ∃ i, ∃ c ∈ possibleCategories,
        IsLeast {j | ∃ v ∈ possibleCategories, OccursAt v (strip s) j} i ∧
        OccursAt c (strip s) i ∧
        (∀ v ∈ possibleCategories, OccursAt v (strip s) i → v = c) ∧
        parseAnswerV2 s = .ok (llmMark ++ c) ∧ parseAnswer s = .ok c) ∧
    ((∀ c ∈ possibleCategories, ¬ c <:+: strip s) → parseAnswer s = .ok (strip s)) ∧
    ∀ cats : List Text, cats.Perm possibleCategories →
      parseBlock cats llmMark s = parseAnswerV2 s ∧ parseBlock cats [] s = parseAnswer s := by
  have hvoc := possibleCategories_searchable
  refine ⟨⟨_, _, regexes_eq hvoc, rfl, sha_search_isSome hvoc⟩, parseAnswerV2_total s, ?_, ?_, ?_,
    ?_⟩
  · constructor
    · intro heq
      rcases absent_or_firstAt possibleCategories (strip s) with habs | ⟨i, c, hf⟩
      · exact Or.inl habs
      · rw [parseAnswerV2_of_firstAt hf] at heq
        injection heq with heq
        exact Or.inr ⟨c, hf.mem, heq.symm⟩
    · rintro (habs | ⟨c, hc, hs⟩)
      · exact parseBlock_of_absent hvoc habs
      · exact parseAnswerV2_marked hc hs
  · intro hyes
    obtain ⟨i, c, hf⟩ := exists_firstAt hyes
    refine ⟨i, c, hf.mem, hf.isLeast, hf.occurs, ?_, parseAnswerV2_of_firstAt hf,
      parseAnswer_of_firstAt hf⟩
    intro v hv hocc
    exact hvoc.prefixFree.eq_of_occursAt hv hf.mem hocc hf.occurs
  · exact parseBlock_of_absent hvoc
  · intro cats hp
    exact ⟨parseBlock_perm hvoc hp _ _, parseBlock_perm hvoc hp _ _⟩

/-- The answer `LLM RSA` is returned unchanged, although it contains a category. -/
theorem parseAnswerV2_llm_rsa :
    ¬ (parseAnswerV2 (txt "LLM RSA") = .ok (strip (txt "LLM RSA")) ↔
      ∀ c ∈ possibleCategories, ¬ c <:+: strip (txt "LLM RSA")) := by
  have hs : strip (txt "LLM RSA") = llmMark ++ Category.rsa.value := by rfl
  intro hiff
  refine hiff.mp (parseAnswerV2_marked (Category.value_mem .rsa) hs) _ (Category.value_mem .rsa) ?_
  rw [hs]
  exact (List.suffix_append _ _).isInfix

end Parser

/-! ## The two functions that ask -/

section Asking

variable {w : World} {filePath : Path} {question answer : Text}

/-- **The two functions differ by the mark only.** On the same answer both return it stripped, if no
category occurs in it; otherwise they name the same category, one of them with the mark. -/
theorem getTrueCategory_siblings (categories : List Text) (hread : w.read filePath = .ok question)
    (hchat : w.chat filePath (txt "llama3.1") (prompt question) = .ok ⟨none, some answer⟩)
    (hgen : w.generate filePath (txt "llama3.1") (promptV2 question categories) =
      .ok (some answer)) :
    ((∀ c ∈ possibleCategories, ¬ c <:+: strip answer) ∧
        getTrueCategory w filePath categories = .ok (strip answer) ∧
        getTrueCategoryV2Codellama w filePath categories = .ok (strip answer)) ∨
      ∃ c ∈ possibleCategories, getTrueCategory w filePath categories = .ok c ∧
        getTrueCategoryV2Codellama w filePath categories = .ok (llmMark ++ c) := by
  have hchatted : getTrueCategory w filePath categories = parseAnswer answer := by
    unfold getTrueCategory
    simp only [hread, ok_bind, hchat, replyText]
  have hasked : getTrueCategoryV2Codellama w filePath categories = parseAnswerV2 answer := by
    rw [getTrueCategoryV2Codellama_eq, askLlm_eq]
    simp only [hread, ok_bind, hgen, replyText]
  rw [hchatted, hasked]
  rcases absent_or_firstAt possibleCategories (strip answer) with habs | ⟨i, c, hf⟩
  · have hraw : ∀ mark, parseBlock possibleCategories mark answer = .ok (strip answer) :=
      fun _ => parseBlock_of_absent possibleCategories_searchable habs
    exact .inl ⟨habs, hraw [], hraw llmMark⟩
  · exact .inr ⟨c, hf.mem, parseAnswer_of_firstAt hf, parseAnswerV2_of_firstAt hf⟩

variable {args : Dict Text Text} {code name : Text}

theorem identifyAlgorithm_ok (hcode : args.get? (txt "code") = some code)
    (hname : args.get? (txt "algorithm_name") = some name)
    (hkeys : ∀ k ∈ args.keys, k ∈ parameters) : identifyAlgorithm args = .ok name := by
  have hknown : args.keys.find? (!parameters.contains ·) = none := by
    rw [List.find?_eq_none]
    intro k hk
    simp [hkeys k hk]
  unfold identifyAlgorithm
  simp only [hknown, hcode, hname]

/-- Renaming `description` to `explanation` touches no other argument. -/
theorem get?_renamed {k desc : Text} (hexp : k ≠ txt "explanation") (hdesc : k ≠ txt "description") :
    ((args.erase (txt "description")).set (txt "explanation") desc).get? k = args.get? k := by
  rw [Dict.get?_set_ne _ hexp, Dict.get?_erase_ne _ hdesc]

/-- A tool call returns the algorithm's name as it is given. The model may say `description` for
`explanation`; nothing checks the name against the categories. -/
theorem runToolCall_ok (hcode : args.get? (txt "code") = some code)
    (hname : args.get? (txt "algorithm_name") = some name)
    (hkeys : ∀ k ∈ args.keys, k ∈ parameters ∨ k = txt "description") :
    runToolCall ⟨txt "identify_algorithm", args⟩ = .ok name := by
  unfold runToolCall
  rw [if_pos rfl]
  cases hdesc : args.get? (txt "description") with
  | none =>
      show identifyAlgorithm args = _
      apply identifyAlgorithm_ok hcode hname
      intro k hk
      rcases hkeys k hk with h | rfl
      · exact h
      · exact absurd hk (Dict.not_mem_keys_of_get? hdesc)
  | some desc =>
      show identifyAlgorithm ((args.erase (txt "description")).set (txt "explanation") desc) = _
      apply identifyAlgorithm_ok ((get?_renamed ?_ ?_).trans hcode)
        ((get?_renamed ?_ ?_).trans hname)
      · intro k hk
        rcases (Dict.mem_keys_set _).mp hk with rfl | hk
        · exact List.mem_cons_of_mem _ (List.mem_cons_of_mem _ List.mem_cons_self)
        · obtain ⟨hk, hne⟩ := (Dict.mem_keys_erase _).mp hk
          exact (hkeys k hk).resolve_right hne
      all_goals
        intro h
        exact absurd (congrArg List.length h) (by decide)

end Asking

/-! ## The prompt's names and the parser's names -/

section Vocabularies

variable {n u v s : Text}

/-- Apart from names inside `n`, the text `t` contains no name but `n`. -/
def OnlyName (n t : Text) : Prop := ∀ m ∈ possibleCategories ++ promptNames, m <:+: t → m <:+: n

instance (n t : Text) : Decidable (OnlyName n t) :=
  inferInstanceAs (Decidable (∀ m ∈ possibleCategories ++ promptNames, m <:+: t → m <:+: n))

/-- The answer is handled by the `if any(…)` branch. -/
def takesMatchBranch (answer : Text) : Bool :=
  match regexes possibleCategories with
  | .ok rs => (answerMatches rs answer).any Option.isSome
  | .error _ => false

/-- The prompt's names that the parser spells differently. -/
def driftedNames : List Text := [txt "CAMELLIA", txt "CHACHA20", txt "NO_CRYPTO"]

theorem driftedNames_eq : driftedNames =
    [['C', 'A', 'M', 'E', 'L', 'L', 'I', 'A'], ['C', 'H', 'A', 'C', 'H', 'A', '2', '0'],
      ['N', 'O', '_', 'C', 'R', 'Y', 'P', 'T', 'O']] := by
  rfl

theorem mem_possibleCategories_of_not_drifted :
    ∀ n ∈ promptNames, n ∉ driftedNames → n ∈ possibleCategories := by
  rw [promptNames_eq, possibleCategories_eq, driftedNames_eq]
  decide

theorem not_infix_of_drifted :
    ∀ n ∈ driftedNames, ∀ m ∈ possibleCategories, ¬ m <:+: n := by
  rw [possibleCategories_eq, driftedNames_eq]
  decide

/-- The parser's one name outside the enum is inside no name of the prompt. -/
theorem bcrypt_not_inside : ∀ n ∈ promptNames, ¬ txt "bcrypt" <:+: n := by
  have hb : txt "bcrypt" = ['b', 'c', 'r', 'y', 'p', 't'] := rfl
  rw [promptNames_eq, hb]
  decide

theorem takesMatchBranch_iff :
    takesMatchBranch s = true ↔ ∃ c ∈ possibleCategories, c <:+: strip s := by
  have hvoc := possibleCategories_searchable
  have hcat : ((categoryRegex possibleCategories).search (strip s)).isSome ↔
      ∃ c ∈ possibleCategories, c <:+: strip s := by
    rw [Option.isSome_iff_ne_none, Ne, Pattern.search_eq_none_iff (categoryRegex_spells hvoc)]
    simp
  unfold takesMatchBranch
  rw [regexes_eq hvoc, ← hcat]
  simp only [answerMatches, List.map_cons, List.map_nil, List.any_cons, List.any_nil,
    Bool.or_false, Bool.or_eq_true]
  constructor
  · rintro (h | h)
    · exact h
    · exact sha_search_isSome hvoc h
  · exact Or.inl

/-- A category that occurs inside a prompt name is a value of the enum. -/
theorem exists_category_of_inside (hn : n ∈ promptNames) {m : Text} (hm : m ∈ possibleCategories)
    (hinf : m <:+: n) : ∃ c : Category, c.value = m := by
  rcases List.mem_append.mp hm with hm | hm
  · obtain ⟨c, -, hc⟩ := List.mem_map.mp hm
    exact ⟨c, hc⟩
  · rw [List.mem_singleton] at hm
    exact absurd (hm ▸ hinf) (bcrypt_not_inside n hn)

/-- All names in such an answer, stripped or not, are inside `n`. -/
theorem OnlyName.infix_of_strip (honly : OnlyName n s) {m : Text} (hm : m ∈ possibleCategories)
    (hinf : m <:+: strip s) : m <:+: n :=
  honly m (List.mem_append_left _ hm)
    ((infix_stripBy_iff (possibleCategories_solid m hm)).mp hinf)

theorem OnlyName.absent_of_drifted (honly : OnlyName n s) (hn : n ∈ driftedNames) :
    ∀ m ∈ possibleCategories, ¬ m <:+: strip s :=
  fun m hm hinf => not_infix_of_drifted n hn m hm (honly.infix_of_strip hm hinf)

/-- **The two vocabularies.** An answer whose only name is the prompt's `n` is recognised as a
member of the enum if and only if `n` is not one of the drifted names. -/
theorem promptName_parses_iff (n u v : Text) (hn : n ∈ promptNames)
    (honly : OnlyName n (u ++ n ++ v)) :
    (takesMatchBranch (u ++ n ++ v) = true ∧
        ∃ c : Category, parseAnswerV2 (u ++ n ++ v) = .ok (llmMark ++ c.value)) ↔
      n ∉ driftedNames := by
  constructor
  · rintro ⟨hbranch, -⟩ hdrift
    obtain ⟨m, hm, hinf⟩ := takesMatchBranch_iff.mp hbranch
    exact honly.absent_of_drifted hdrift m hm hinf
  · intro hgood
    have hmem : n ∈ possibleCategories := mem_possibleCategories_of_not_drifted n hn hgood
    have hocc : n <:+: strip (u ++ n ++ v) :=
      (infix_stripBy_iff (possibleCategories_solid n hmem)).mpr ⟨u, v, rfl⟩
    refine ⟨takesMatchBranch_iff.mpr ⟨n, hmem, hocc⟩, ?_⟩
    obtain ⟨i, m, hf⟩ := exists_firstAt ⟨n, hmem, hocc⟩
    have hinside : m <:+: n := honly.infix_of_strip hf.mem hf.occurs.isInfix
    obtain ⟨c, rfl⟩ := exists_category_of_inside hn hf.mem hinside
    exact ⟨c, parseAnswerV2_of_firstAt hf⟩

/-- `It is USES_AES.` is recognised, although `AES` is a category of its own. -/
theorem promptName_parses_uses_aes :
    OnlyName (txt "USES_AES") (txt "It is " ++ txt "USES_AES" ++ txt ".") ∧
      ∃ c : Category, parseAnswerV2 (txt "It is " ++ txt "USES_AES" ++ txt ".") =
        .ok (llmMark ++ c.value) := by
  have hname : txt "USES_AES" = ['U', 'S', 'E', 'S', '_', 'A', 'E', 'S'] := rfl
  have hmem : txt "USES_AES" ∈ promptNames := by
    rw [promptNames_eq, hname]
    decide
  have honly : OnlyName (txt "USES_AES") (txt "It is " ++ txt "USES_AES" ++ txt ".") := by
    have htext : txt "It is " ++ txt "USES_AES" ++ txt "." =
        ['I', 't', ' ', 'i', 's', ' ', 'U', 'S', 'E', 'S', '_', 'A', 'E', 'S', '.'] := rfl
    unfold OnlyName
    rw [htext, hname, possibleCategories_eq, promptNames_eq]
    decide
  have hgood : txt "USES_AES" ∉ driftedNames := by
    rw [driftedNames_eq, hname]
    decide
  exact ⟨honly, ((promptName_parses_iff _ _ _ hmem honly).mpr hgood).2⟩

/-- `CAMELLIA` is what the prompt asks for, and comes back as the raw answer. -/
theorem camellia_falls_through :
    txt "CAMELLIA" ∈ promptNames ∧ OnlyName (txt "CAMELLIA") ([] ++ txt "CAMELLIA" ++ []) ∧
      takesMatchBranch ([] ++ txt "CAMELLIA" ++ []) = false ∧
      parseAnswerV2 ([] ++ txt "CAMELLIA" ++ []) = .ok (txt "CAMELLIA") ∧
      ¬ ∃ c : Category, parseAnswerV2 ([] ++ txt "CAMELLIA" ++ []) = .ok (llmMark ++ c.value) := by
  have hname : txt "CAMELLIA" = ['C', 'A', 'M', 'E', 'L', 'L', 'I', 'A'] := rfl
  have hmem : txt "CAMELLIA" ∈ promptNames := by
    rw [promptNames_eq, hname]
    decide
  have hdrift : txt "CAMELLIA" ∈ driftedNames := by
    rw [driftedNames_eq, hname]
    decide
  rw [List.nil_append, List.append_nil]
  have honly : OnlyName (txt "CAMELLIA") (txt "CAMELLIA") := fun m _ hinf => hinf
  have habs := honly.absent_of_drifted hdrift
  have hstrip : strip (txt "CAMELLIA") = txt "CAMELLIA" := by
    rw [hname]
    decide
  have hparse : parseAnswerV2 (txt "CAMELLIA") = .ok (txt "CAMELLIA") := by
    have hraw : parseAnswerV2 (txt "CAMELLIA") = .ok (strip (txt "CAMELLIA")) :=
      parseBlock_of_absent possibleCategories_searchable habs
    rwa [hstrip] at hraw
  refine ⟨hmem, honly, ?_, hparse, ?_⟩
  · rw [← Bool.not_eq_true, takesMatchBranch_iff]
    rintro ⟨m, hm, hinf⟩
    exact habs m hm hinf
  · rintro ⟨c, hc⟩
    rw [hparse, hname] at hc
    injection hc with hc
    exact absurd (List.cons.inj hc).1 (by decide)

end Vocabularies

end CryptoScan
