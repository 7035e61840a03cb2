import CryptoScan.Answer.Verified

/-!
# How stable a label is

Properties of the answer parser that a longer or a second reading of an answer would rely on.

* **Reading a label again** (`parseAnswerV2_roundtrip`) — a label parses to itself, and the sibling
  function reads the same category from it as from the answer.
* **Answers that go on** (`parseAnswerV2_append`) — the prompt asks for the category and nothing else,
  and models go on all the same. What follows a category does not change the label, with a single
  exception (`BreaksOff`): the answer breaks off inside `PASSWORD_PBKDF2_SHA256`, behind
  `PASSWORD_PBKDF2_SHA` or one or two letters later, and what follows completes the name.
* **Tool calls** (`getTrueCategory_toolCall_iff`) — the calls that the chat variant accepts, and that it
  returns the given name whatever it is.
-/

namespace CryptoScan

open Python

/-! ## Reading a label again -/

section Roundtrip

variable {s c : Text}

theorem strip_strip (s : Text) : strip (strip s) = strip s := stripBy_stripBy isSpace s

/-- A marked category has no blanks at its ends. -/
theorem strip_marked (hc : c ∈ possibleCategories) : strip (llmMark ++ c) = llmMark ++ c := by
  have hall : ∀ c ∈ possibleCategories,
      strip (['L', 'L', 'M', ' '] ++ c) = ['L', 'L', 'M', ' '] ++ c := by
    rw [possibleCategories_eq]
    decide
  exact hall c hc

/-- **A label is read as itself**: it parses to itself, and to the category of the answer without the
mark. -/
theorem parseAnswerV2_roundtrip (s : Text) :
    ∃ label, parseAnswerV2 s = .ok label ∧ parseAnswerV2 label = .ok label ∧
      parseAnswer label = parseAnswer s := by
  have hvoc := possibleCategories_searchable
  rcases absent_or_firstAt possibleCategories (strip s) with habs | ⟨i, c, hf⟩
  · have habs' : ∀ v ∈ possibleCategories, ¬ v <:+: strip (strip s) := by rwa [strip_strip]
    have hraw : ∀ mark, parseBlock possibleCategories mark s = .ok (strip s) :=
      fun _ => parseBlock_of_absent hvoc habs
    have hagain : ∀ mark, parseBlock possibleCategories mark (strip s) = .ok (strip s) := by
      intro mark
      rw [parseBlock_of_absent hvoc habs', strip_strip]
    exact ⟨strip s, hraw llmMark, hagain llmMark, (hagain []).trans (hraw []).symm⟩
  · have hmarked : FirstAt possibleCategories (strip (llmMark ++ c)) 4 c := by
      rw [strip_marked hf.mem]
      exact firstAt_marked hf.mem
    refine ⟨llmMark ++ c, parseAnswerV2_of_firstAt hf, parseAnswerV2_of_firstAt hmarked, ?_⟩
    rw [parseAnswer_of_firstAt hf, parseAnswer_of_firstAt hmarked]

end Roundtrip

/-! ## Answers that go on -/

section Append

variable {s t c : Text}

/-- The one category that has another one inside it, with letters on both sides. -/
theorem inside_category : ∀ v ∈ possibleCategories, ∀ c ∈ possibleCategories,
    c <:+: v.tail.dropLast → c = txt "SHA" ∧ v = txt "PASSWORD_PBKDF2_SHA256" := by
  have hsha : txt "SHA" = ['S', 'H', 'A'] := rfl
  have hpbkdf2 : txt "PASSWORD_PBKDF2_SHA256" = ['P', 'A', 'S', 'S', 'W', 'O', 'R', 'D', '_', 'P', 'B',
    'K', 'D', 'F', '2', '_', 'S', 'H', 'A', '2', '5', '6'] := rfl
  rw [possibleCategories_eq, hsha, hpbkdf2]
  decide

/-- A marked label comes from a first category. -/
theorem exists_firstAt_of_marked (hc : c ∈ possibleCategories)
    (h : parseAnswerV2 s = .ok (llmMark ++ c)) : ∃ i, FirstAt possibleCategories s i c := by
  rcases absent_or_firstAt possibleCategories (strip s) with habs | ⟨i, v, hf⟩
  · -- the answer would be the label, but that has a category in it
    have hraw : parseAnswerV2 s = .ok (strip s) :=
      parseBlock_of_absent possibleCategories_searchable habs
    rw [h] at hraw
    have hin : c <:+: strip s := by
      rw [← Except.ok.inj hraw]
      exact (List.suffix_append llmMark c).isInfix
    exact absurd hin (habs c hc)
  · rw [parseAnswerV2_of_firstAt hf] at h
    have hvc : v = c := List.append_cancel_left (Except.ok.inj h)
    subst hvc
    exact ⟨_, (firstAt_iff_stripBy possibleCategories_solid).mpr ⟨i, rfl, hf⟩⟩

theorem parseAnswerV2_of_firstAt_unstripped {i : Nat} (hf : FirstAt possibleCategories s i c) :
    parseAnswerV2 s = .ok (llmMark ++ c) := by
  obtain ⟨j, -, hj⟩ := (firstAt_iff_stripBy possibleCategories_solid).mp hf
  exact parseAnswerV2_of_firstAt hj

theorem not_inside_category : ∀ v ∈ possibleCategories,
    ¬ txt "PASSWORD_PBKDF2_SH" <:+: v.tail.dropLast := by
  have hname : txt "PASSWORD_PBKDF2_SH" = ['P', 'A', 'S', 'S', 'W', 'O', 'R', 'D', '_', 'P', 'B', 'K',
    'D', 'F', '2', '_', 'S', 'H'] := rfl
  rw [possibleCategories_eq, hname]
  decide

theorem three_le_length : ∀ v ∈ possibleCategories, 3 ≤ v.length := by
  rw [possibleCategories_eq]
  decide

theorem sha_index (k : Nat) (h : OccursAt (txt "SHA") (txt "PASSWORD_PBKDF2_SHA256") k) : k = 16 := by
  have hall : ∀ k < 22, OccursAt ['S', 'H', 'A'] ['P', 'A', 'S', 'S', 'W', 'O', 'R', 'D', '_', 'P', 'B',
      'K', 'D', 'F', '2', '_', 'S', 'H', 'A', '2', '5', '6'] k → k = 16 := by decide
  have hend : k + 3 ≤ 22 := h.add_length_le (List.cons_ne_nil _ _)
  exact hall k (by omega) h

/-- The name `PASSWORD_PBKDF2_SHA256` is cut behind `PASSWORD_PBKDF2_SHA` or later: it begins in `s`
and ends in `t`. Before this `SHA` there is no category in `s`. -/
def BreaksOff (s t : Text) : Prop :=
  ∃ u x y z, s = u ++ x ∧ t = y ++ z ∧ y ≠ [] ∧ x ++ y = txt "PASSWORD_PBKDF2_SHA256" ∧
    txt "PASSWORD_PBKDF2_SHA" <+: x ∧
    ∀ v ∈ possibleCategories, ¬ v <:+: u ++ txt "PASSWORD_PBKDF2_SH"

/-- Then the first category of the whole is the completed one. -/
theorem BreaksOff.firstAt (h : BreaksOff s t) :
    ∃ u x, s = u ++ x ∧ x.length < (txt "PASSWORD_PBKDF2_SHA256").length ∧
      FirstAt possibleCategories (s ++ t) u.length (txt "PASSWORD_PBKDF2_SHA256") := by
  obtain ⟨u, x, y, z, rfl, rfl, hy, hxy, -, habs⟩ := h
  have htext : u ++ x ++ (y ++ z) = u ++ txt "PASSWORD_PBKDF2_SHA256" ++ z := by
    rw [← hxy]
    simp
  refine ⟨u, x, rfl, ?_, ?_⟩
  · have hpos := List.length_pos_iff.mpr hy
    rw [← hxy, List.length_append]
    omega
  rw [htext]
  refine ⟨Category.value_mem .passwordPbkdf2Sha256, occursAt_append _ _ _, ?_⟩
  intro j hj v hv hocc
  have hsplit : u ++ txt "PASSWORD_PBKDF2_SHA256" ++ z =
      u ++ txt "PASSWORD_PBKDF2_SH" ++ (['A', '2', '5', '6'] ++ z) := by
    rw [← List.append_assoc, List.append_assoc u _ ['A', '2', '5', '6']]
    rfl
  have hlen : (txt "PASSWORD_PBKDF2_SH").length = 18 := rfl
  rw [hsplit] at hocc
  by_cases hend : j + v.length ≤ u.length + 18
  · -- it would be in `s`, before the `SHA`
    apply habs v hv
    exact (hocc.of_append_right (by rw [List.length_append, hlen]; exact hend)).isInfix
  · -- it would have the beginning of the name inside it
    have hname := occursAt_append u (txt "PASSWORD_PBKDF2_SH") (['A', '2', '5', '6'] ++ z)
    have hin := hocc.within hname hj.le (by rw [hlen]; omega) (by simp; omega)
    exact not_inside_category v hv (hin.inside (by omega) (by rw [hlen]; omega))

/-- A category that is cut by the end of `s`, with the first one of `s` inside it, is that one. -/
theorem breaksOff_of_cut {u x y z : Text} {k : Nat} (hy : y ≠ [])
    (hf : FirstAt possibleCategories (u ++ x) (u.length + k) c) (hxy : x ++ y ∈ possibleCategories)
    (hk : 0 < k) (hocc : OccursAt c x k) :
    c = txt "SHA" ∧ BreaksOff (u ++ x) (y ++ z) := by
  have hne := (possibleCategories_solid c hf.mem).1
  have hend := hocc.add_length_le hne
  have hin : OccursAt c (x ++ y) k := hocc.append_right y
  have hpos := List.length_pos_iff.mpr hy
  obtain ⟨rfl, hname⟩ := inside_category _ hxy c hf.mem
    (hin.inside hk (by rw [List.length_append]; omega))
  rw [hname] at hin
  obtain rfl := sha_index k hin
  have hprefix : txt "PASSWORD_PBKDF2_SHA" <+: x := by
    have hwhole : txt "PASSWORD_PBKDF2_SHA" <+: x ++ y := by
      rw [hname]
      exact List.prefix_append (txt "PASSWORD_PBKDF2_SHA") ['2', '5', '6']
    exact List.prefix_of_prefix_length_le hwhole (List.prefix_append x y) hend
  refine ⟨rfl, u, x, y, z, rfl, rfl, hy, hname, hprefix, ?_⟩
  -- a category before this `SHA` would be the first one of `s`
  intro v hv hinf
  obtain ⟨j, -, hj⟩ := infix_iff_occursAt.mp hinf
  have hjend : j + v.length ≤ u.length + 18 := by
    have := hj.add_length_le (possibleCategories_solid v hv).1
    rwa [List.length_append] at this
  obtain ⟨r, rfl⟩ := hprefix
  have hs : u ++ (txt "PASSWORD_PBKDF2_SHA" ++ r) = u ++ txt "PASSWORD_PBKDF2_SH" ++ ('A' :: r) := by
    rw [List.append_assoc]
    rfl
  have hlong := three_le_length v hv
  apply hf.least j (by omega) v hv
  rw [hs]
  exact hj.append_right _

/-- **What follows a category does not change the label**, unless the answer broke off inside
`PASSWORD_PBKDF2_SHA256`, behind its `SHA`, and is completed. -/
theorem parseAnswerV2_append (s t c : Text) (hc : c ∈ possibleCategories)
    (h : parseAnswerV2 s = .ok (llmMark ++ c)) :
    (¬ BreaksOff s t → parseAnswerV2 (s ++ t) = .ok (llmMark ++ c)) ∧
      (BreaksOff s t → c = txt "SHA" ∧
        parseAnswerV2 (s ++ t) = .ok (llmMark ++ txt "PASSWORD_PBKDF2_SHA256")) := by
  obtain ⟨i, hf⟩ := exists_firstAt_of_marked hc h
  have happend := hf.append possibleCategories_prefixFree (possibleCategories_solid c hc).1 t
  constructor
  · intro hwhole
    rcases happend with hsame | ⟨u, x, y, z, k, rfl, rfl, hy, hv, hk, rfl, hocc⟩
    · exact parseAnswerV2_of_firstAt_unstripped hsame
    · exact absurd (breaksOff_of_cut hy hf hv.mem hk hocc).2 hwhole
  · intro hbreaks
    obtain ⟨u, x, rfl, hlen, hfirst⟩ := hbreaks.firstAt
    refine ⟨?_, parseAnswerV2_of_firstAt_unstripped hfirst⟩
    rcases happend with hsame | ⟨u', x', y, z, k, hux, rfl, hy, hv, hk, rfl, hocc⟩
    · -- the name itself is not in `s`
      obtain ⟨rfl, rfl⟩ := hfirst.unique possibleCategories_prefixFree hsame
      have hend := hf.occurs.add_length_le (possibleCategories_solid _ hc).1
      rw [List.length_append] at hend
      omega
    · rw [hux] at hf
      exact (breaksOff_of_cut (z := z) hy hf hv.mem hk hocc).1

/-- An answer that goes on behind `RSA`, and one that is cut behind `PASSWORD_PBKDF2_SHA2`. -/
theorem parseAnswerV2_append_demo :
    parseAnswerV2 (['R', 'S', 'A'] ++ ['.', ' ', 'N', 'o', 't', ' ', 'D', 'S', 'A']) =
        .ok (llmMark ++ ['R', 'S', 'A']) ∧
      parseAnswerV2 (['P', 'A', 'S', 'S', 'W', 'O', 'R', 'D', '_', 'P', 'B', 'K', 'D', 'F', '2', '_',
        'S', 'H', 'A', '2'] ++ ['5', '6']) = .ok (llmMark ++ txt "PASSWORD_PBKDF2_SHA256") := by
  constructor
  · have hc : ['R', 'S', 'A'] ∈ possibleCategories := Category.value_mem .rsa
    have hfirst : FirstAt possibleCategories ['R', 'S', 'A'] 0 ['R', 'S', 'A'] :=
      ⟨hc, by decide, fun j hj => absurd hj (Nat.not_lt_zero j)⟩
    have happend := parseAnswerV2_append _ ['.', ' ', 'N', 'o', 't', ' ', 'D', 'S', 'A'] _ hc
      (parseAnswerV2_of_firstAt_unstripped hfirst)
    apply happend.1
    intro hbreaks
    cases (happend.2 hbreaks).1
  · have hc : ['S', 'H', 'A'] ∈ possibleCategories := Category.value_mem .sha
    have hfirst : FirstAt possibleCategories ['P', 'A', 'S', 'S', 'W', 'O', 'R', 'D', '_', 'P', 'B',
        'K', 'D', 'F', '2', '_', 'S', 'H', 'A', '2'] 16 ['S', 'H', 'A'] := by
      refine ⟨hc, by decide, ?_⟩
      rw [possibleCategories_eq]
      decide
    have hname : txt "PASSWORD_PBKDF2_SH" = ['P', 'A', 'S', 'S', 'W', 'O', 'R', 'D', '_', 'P', 'B',
      'K', 'D', 'F', '2', '_', 'S', 'H'] := rfl
    have habs : ∀ v ∈ possibleCategories, ¬ v <:+: [] ++ txt "PASSWORD_PBKDF2_SH" := by
      rw [possibleCategories_eq, hname]
      decide
    exact ((parseAnswerV2_append _ ['5', '6'] _ hc (parseAnswerV2_of_firstAt_unstripped hfirst)).2
      ⟨[], _, _, [], rfl, rfl, List.cons_ne_nil _ _, rfl, ⟨['2'], rfl⟩, habs⟩).2

end Append

/-! ## Tool calls -/

section ToolCalls

variable {args : Dict Text Text} {name : Text}

theorem identifyAlgorithm_inv (h : identifyAlgorithm args = .ok name) :
    (∃ code, args.get? (txt "code") = some code) ∧ args.get? (txt "algorithm_name") = some name ∧
      ∀ k ∈ args.keys, k ∈ parameters := by
  unfold identifyAlgorithm at h
  cases hfind : args.keys.find? (!parameters.contains ·) with
  | some k =>
      rw [hfind] at h
      cases h
  | none =>
      rw [hfind] at h
      have hknown : ∀ k ∈ args.keys, k ∈ parameters := by
        intro k hk
        have := List.find?_eq_none.mp hfind k hk
        simpa using this
      cases hcode : args.get? (txt "code") with
      | none =>
          cases hname : args.get? (txt "algorithm_name") <;> simp [hcode, hname] at h
      | some code =>
          cases hname : args.get? (txt "algorithm_name") with
          | none => simp [hcode, hname] at h
          | some n =>
              simp only [hcode, hname] at h
              cases h
              exact ⟨⟨code, rfl⟩, rfl, hknown⟩

theorem runToolCall_inv (h : runToolCall ⟨txt "identify_algorithm", args⟩ = .ok name) :
    (∃ code, args.get? (txt "code") = some code) ∧ args.get? (txt "algorithm_name") = some name ∧
      ∀ k ∈ args.keys, k ∈ parameters ∨ k = txt "description" := by
  unfold runToolCall at h
  rw [if_pos rfl] at h
  cases hdesc : args.get? (txt "description") with
  | none =>
      simp only [hdesc] at h
      obtain ⟨hcode, hname, hkeys⟩ := identifyAlgorithm_inv h
      exact ⟨hcode, hname, fun k hk => .inl (hkeys k hk)⟩
  | some desc =>
      simp only [hdesc] at h
      obtain ⟨⟨code, hcode⟩, hname, hkeys⟩ := identifyAlgorithm_inv h
      have hlen : ∀ {a b : Text}, a.length ≠ b.length → a ≠ b := fun hne heq => hne (heq ▸ rfl)
      rw [get?_renamed (hlen (by decide)) (hlen (by decide))] at hcode
      rw [get?_renamed (hlen (by decide)) (hlen (by decide))] at hname
      refine ⟨⟨code, hcode⟩, hname, ?_⟩
      intro k hk
      by_cases hkd : k = txt "description"
      · exact .inr hkd
      · left
        apply hkeys
        exact (Dict.mem_keys_set _).mpr (.inr ((Dict.mem_keys_erase _).mpr ⟨hk, hkd⟩))

/-- **The tool calls that are accepted.** Only the first call of a reply counts. It has to name the one
function there is and to give it `code` and `algorithm_name`, with an explanation under either of two
names and nothing else; then the result is the name it gives, which need not be a category. -/
theorem getTrueCategory_toolCall_iff (w : World) (filePath : Path) (categories : List Text)
    (question name : Text) (call : ToolCall) (calls : List ToolCall) (content : Option Text)
    (hread : w.read filePath = .ok question)
    (hchat : w.chat filePath (txt "llama3.1") (prompt question) =
      .ok ⟨some (call :: calls), content⟩) :
    getTrueCategory w filePath categories = .ok name ↔
      call.name = txt "identify_algorithm" ∧
        (∃ code, call.arguments.get? (txt "code") = some code) ∧
        call.arguments.get? (txt "algorithm_name") = some name ∧
        ∀ k ∈ call.arguments.keys, k ∈ parameters ∨ k = txt "description" := by
  have hcall : getTrueCategory w filePath categories = runToolCall call := by
    unfold getTrueCategory
    simp only [hread, ok_bind, hchat]
  obtain ⟨callName, args⟩ := call
  rw [hcall]
  constructor
  · intro h
    have hname : callName = txt "identify_algorithm" := by
      by_contra hne
      unfold runToolCall at h
      rw [if_neg hne] at h
      cases h
    subst hname
    exact ⟨rfl, runToolCall_inv h⟩
  · rintro ⟨rfl, ⟨code, hcode⟩, hname, hkeys⟩
    exact runToolCall_ok hcode hname hkeys

/-- A world where the chat reply calls the tool with these arguments. -/
def demoCaller (arguments : Dict Text Text) : World where
  directory _ := none
  read _ := .ok []
  query _ _ _ := .ok ⟨[], [], []⟩
  generate _ _ _ := .ok none
  chat _ _ _ := .ok ⟨some [⟨txt "identify_algorithm", arguments⟩], none⟩

/-- A name that is no category is returned; and without `code` nothing is. -/
theorem getTrueCategory_toolCall_demo :
    getTrueCategory (demoCaller ((Dict.empty.set (txt "code") []).set (txt "algorithm_name") ['X']))
        [] [] = .ok ['X'] ∧
      getTrueCategory (demoCaller (Dict.empty.set (txt "algorithm_name") ['X'])) [] [] ≠
        .ok ['X'] := by
  constructor
  · apply (getTrueCategory_toolCall_iff _ [] [] [] ['X'] _ [] none rfl rfl).mpr
    refine ⟨rfl, ⟨[], rfl⟩, rfl, ?_⟩
    intro k hk
    left
    rcases List.mem_cons.mp hk with rfl | hk
    · exact List.mem_cons_self
    · rw [List.mem_singleton.mp hk]
      exact List.mem_cons_of_mem _ List.mem_cons_self
  · intro h
    obtain ⟨-, ⟨code, hcode⟩, -⟩ :=
      (getTrueCategory_toolCall_iff _ [] [] [] ['X'] _ [] none rfl rfl).mp h
    cases hcode

end ToolCalls

end CryptoScan
