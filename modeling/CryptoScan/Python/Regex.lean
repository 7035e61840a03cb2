import CryptoScan.Python.Text

/-!
# A fragment of `re`: literals, alternation and capturing groups

`re.compile` and `Pattern.search` for patterns built from literal characters, escaped punctuation,
`|` and `( … )` — the fragment a program uses that looks for one of several fixed words.

* `compile` reads the pattern text itself, one character at a time, with a stack of the groups
  still open. Everything outside the fragment is refused, never misread.
* `Regex.hits` is the backtracking matcher as a list of successes: the ways to match at the
  current position, *in the order the engine tries them*. The engine's answer is the first.
* `Pattern.search` moves the position from left to right and stops at the first one with a hit.
* `Match.group` raises `IndexError` on a group the pattern does not have.

The second half says what this means for an alternation of words (`Spells`): a search succeeds iff
some word is a substring, and then returns a word that starts at the least possible index
(`Pattern.search_eq_none_iff`, `Pattern.firstAt_of_search`).
-/

namespace CryptoScan.Python

/-! ## Syntax and matching -/

inductive Regex where
  | eps
  | lit (c : Char)
  | seq (r s : Regex)
  | alt (r s : Regex)
  | group (n : Nat) (r : Regex)
  deriving DecidableEq, Repr

/-- One way to match at the current position: what was consumed, what is left, and the groups
closed on the way. -/
structure Hit where
  text : Text
  rest : Text
  groups : List (Nat × Text)
  deriving DecidableEq, Repr

/-- All the ways `r` matches at the head of `t`, in the order backtracking finds them. -/
def Regex.hits : Regex → Text → List Hit
  | .eps, t => [⟨[], t, []⟩]
  | .lit _, [] => []
  | .lit c, d :: t => if c = d then [⟨[c], t, []⟩] else []
  | .seq r s, t =>
      (r.hits t).flatMap fun h =>
        (s.hits h.rest).map fun k => ⟨h.text ++ k.text, k.rest, h.groups ++ k.groups⟩
  | .alt r s, t => r.hits t ++ s.hits t
  | .group n r, t => (r.hits t).map fun h => ⟨h.text, h.rest, h.groups ++ [(n, h.text)]⟩

/-- A compiled pattern: its expression and how many groups it has. -/
structure Pattern where
  regex : Regex
  groups : Nat
  deriving DecidableEq, Repr

structure Match where
  start : Nat
  text : Text
  captures : List (Nat × Text)
  groups : Nat
  deriving DecidableEq, Repr

/-- `match.group(n)`: `None` for a group that took no part, `IndexError` for one that does not
exist. -/
def Match.group (m : Match) (n : Nat) : Except Exc (Option Text) :=
  if n = 0 then .ok (some m.text)
  else if n ≤ m.groups then .ok ((m.captures.reverse.find? (·.1 = n)).map (·.2))
  else .error (.indexError (txt "no such group"))

/-- The first hit at or after the head of `t`, whose index in the whole text is `i`. -/
def Regex.searchFrom (r : Regex) (i : Nat) (t : Text) : Option (Nat × Hit) :=
  match (r.hits t).head? with
  | some h => some (i, h)
  | none =>
      match t with
      | [] => none
      | _ :: t' => r.searchFrom (i + 1) t'

/-- `regex.search(t)`. -/
def Pattern.search (p : Pattern) (t : Text) : Option Match :=
  (p.regex.searchFrom 0 t).map fun (i, h) => ⟨i, h.text, h.groups, p.groups⟩

/-! ## Reading a pattern -/

/-- What has been read of one group: the alternatives before the last `|`, and the sequence
since. -/
structure Level where
  alts : Option Regex
  seq : Regex

def Level.empty : Level := ⟨none, .eps⟩

def Level.regex (l : Level) : Regex :=
  match l.alts with
  | none => l.seq
  | some r => .alt r l.seq

def Level.push (l : Level) (r : Regex) : Level := ⟨l.alts, .seq l.seq r⟩

def Level.bar (l : Level) : Level := ⟨some l.regex, .eps⟩

/-- The reader's state. `outer` holds the groups still open, innermost first, each with its
number. -/
structure Reader where
  escaped : Bool
  opened : Nat
  outer : List (Nat × Level)
  level : Level

/-- Characters with a meaning outside the fragment: `. ^ $ * + ?` and the brackets and braces. -/
def reserved : List Char := ['.', '^', '$', '*', '+', '?', '[', ']', '\x7b', '\x7d']

/-- Characters that stand for themselves. -/
def isPlain (c : Char) : Bool := !(['\\', '|', '(', ')'] ++ reserved).contains c

/-- Read one more character of a pattern. -/
def Reader.step (s : Reader) (c : Char) : Option Reader :=
  if s.escaped then
    -- an escaped letter or digit is a class, an assertion or a back-reference
    if c.isAlphanum then none
    else some { s with escaped := false, level := s.level.push (.lit c) }
  else if c = '\\' then some { s with escaped := true }
  else if c = '|' then some { s with level := s.level.bar }
  else if c = '(' then
    some { s with
      opened := s.opened + 1
      outer := (s.opened + 1, s.level) :: s.outer
      level := .empty }
  else if c = ')' then
    match s.outer with
    | [] => none
    | (n, l) :: outer =>
        some { s with outer := outer, level := l.push (.group n s.level.regex) }
  else if reserved.contains c then none
  else some { s with level := s.level.push (.lit c) }

def Reader.run : Reader → Text → Option Reader
  | s, [] => some s
  | s, c :: p => (s.step c).bind fun s' => s'.run p

/-- `re.compile(p)`, on the fragment. -/
def compile (p : Text) : Option Pattern :=
  (Reader.run ⟨false, 0, [], .empty⟩ p).bind fun s =>
    if s.escaped || !s.outer.isEmpty then none else some ⟨s.level.regex, s.opened⟩

/-! ## Reading an alternation of plain words -/

section Reading

variable {s : Reader} {w : Text} {ws : List Text}

/-- A word whose letters all stand for themselves. -/
def Plain (w : Text) : Prop := ∀ c ∈ w, isPlain c = true

instance (w : Text) : Decidable (Plain w) :=
  decidable_of_iff (w.all isPlain = true) List.all_eq_true

/-- The letters of `w` one after the other, after `r`. -/
def Regex.append (r : Regex) (w : Text) : Regex := w.foldl (fun r c => .seq r (.lit c)) r

/-- The expression that spells out `w`. -/
def Regex.word (w : Text) : Regex := Regex.eps.append w

/-- The alternation of the words `ws`. -/
def Regex.words : List Text → Regex
  | [] => .eps
  | w :: ws => ws.foldl (fun r v => .alt r (.word v)) (.word w)

theorem Reader.run_append (s : Reader) (p q : Text) :
    s.run (p ++ q) = (s.run p).bind fun s' => s'.run q := by
  induction p generalizing s with
  | nil => rfl
  | cons c p ih =>
      simp only [List.cons_append, Reader.run]
      cases s.step c with
      | none => rfl
      | some s' => exact ih s'

theorem Reader.step_plain (hs : s.escaped = false) {c : Char} (hc : isPlain c = true) :
    s.step c = some { s with level := s.level.push (.lit c) } := by
  simp only [isPlain, List.contains_eq_mem, List.cons_append, List.nil_append, List.mem_cons,
    Bool.not_eq_eq_eq_not, Bool.not_true, decide_eq_false_iff_not, not_or] at hc
  obtain ⟨h1, h2, h3, h4, h5⟩ := hc
  simp [Reader.step, hs, h1, h2, h3, h4, h5]

/-- A plain word is read letter by letter into the current sequence. -/
theorem Reader.run_plain (hs : s.escaped = false) (hw : Plain w) :
    s.run w = some { s with level := ⟨s.level.alts, s.level.seq.append w⟩ } := by
  induction w generalizing s with
  | nil => rfl
  | cons c w ih =>
      have ih' := ih (s := { s with level := s.level.push (.lit c) }) hs
        (fun d hd => hw d (by simp [hd]))
      rw [Reader.run, Reader.step_plain hs (hw c (by simp)), Option.bind_some, ih']
      rfl

/-- After one alternative has been read, `|` and a plain word add one more. -/
theorem Reader.run_bar_plain (hs : s.escaped = false) (hw : Plain w) :
    s.run ('|' :: w) = some { s with level := ⟨some s.level.regex, .word w⟩ } := by
  have hbar : s.step '|' = some { s with level := s.level.bar } := by
    simp [Reader.step, hs]
  rw [Reader.run, hbar, Option.bind_some, Reader.run_plain (by exact hs) hw]
  rfl

/-- The level read so far, extended by the alternatives `ws`. -/
theorem Reader.run_bars (hs : s.escaped = false) (hws : ∀ w ∈ ws, Plain w) :
    ∃ l, s.run (ws.flatMap ('|' :: ·)) = some { s with level := l } ∧
      l.regex = ws.foldl (fun r v => .alt r (.word v)) s.level.regex := by
  induction ws generalizing s with
  | nil => exact ⟨s.level, rfl, rfl⟩
  | cons w ws ih =>
      obtain ⟨l, hrun, hl⟩ := ih (s := { s with level := ⟨some s.level.regex, .word w⟩ }) hs
        (fun v hv => hws v (by simp [hv]))
      refine ⟨l, ?_, ?_⟩
      · rw [List.flatMap_cons, Reader.run_append, Reader.run_bar_plain hs (hws w (by simp)),
          Option.bind_some, hrun]
      · rw [hl]
        rfl

/-- `'|'.join(ws)` is the first word followed by every other one behind a bar. -/
theorem intercalate_bar (w : Text) (ws : List Text) :
    ['|'].intercalate (w :: ws) = w ++ ws.flatMap ('|' :: ·) := by
  induction ws generalizing w with
  | nil => simp
  | cons v vs ih => rw [List.intercalate_cons_cons, ih]; simp

/-- **Compiling `(w₁|…|wₙ)`** for plain words gives the alternation of the words, as group 1. -/
theorem compile_group_words (hne : ws ≠ []) (hws : ∀ w ∈ ws, Plain w) :
    compile ('(' :: (['|'].intercalate ws ++ [')'])) =
      some ⟨.seq .eps (.group 1 (.words ws)), 1⟩ := by
  obtain ⟨w, vs, rfl⟩ := List.exists_cons_of_ne_nil hne
  let s₀ : Reader := ⟨false, 1, [(1, .empty)], .empty⟩
  let s₁ : Reader := { s₀ with level := ⟨none, .word w⟩ }
  have hw : s₀.run w = some s₁ := Reader.run_plain rfl (hws w (by simp))
  obtain ⟨l, hvs, hl⟩ := Reader.run_bars (s := s₁) rfl
    (fun v (hv : v ∈ vs) => hws v (by simp [hv]))
  have hrun : Reader.run ⟨false, 0, [], .empty⟩ ('(' :: (['|'].intercalate (w :: vs) ++ [')'])) =
      some ⟨false, 1, [], Level.empty.push (.group 1 l.regex)⟩ := by
    show s₀.run _ = _
    rw [intercalate_bar, Reader.run_append, Reader.run_append, hw, Option.bind_some, hvs]
    rfl
  rw [compile, hrun, hl]
  rfl

end Reading

/-! ## Searching for words -/

section Searching

variable {ws : List Text} {f : Text → List (Nat × Text)} {r : Regex} {p : Pattern} {t : Text}

/-- The hit of a single word, with the groups `f w` that it closes. -/
def wordHits (f : Text → List (Nat × Text)) (t w : Text) : List Hit :=
  if w <+: t then [⟨w, t.drop w.length, f w⟩] else []

/-- `r` matches exactly the words `ws`, tried in this order, closing the groups `f w` on `w`. -/
def Regex.Spells (r : Regex) (ws : List Text) (f : Text → List (Nat × Text)) : Prop :=
  ∀ t, r.hits t = ws.flatMap (wordHits f t)

theorem wordHits_append_lit (w : Text) (c : Char) (t : Text) :
    ((wordHits (fun _ => []) t w).flatMap fun h =>
        ((Regex.lit c).hits h.rest).map fun k => ⟨h.text ++ k.text, k.rest, h.groups ++ k.groups⟩) =
      wordHits (fun _ => []) t (w ++ [c]) := by
  by_cases hw : w <+: t
  · obtain ⟨u, rfl⟩ := hw
    have hdrop : (w ++ u).drop w.length = u := List.drop_left
    cases u with
    | nil =>
        have hlong : ¬ (w ++ [c]) <+: w := fun h => absurd h.length_le (by simp)
        simp [wordHits, Regex.hits, hlong]
    | cons d u =>
        by_cases hcd : c = d
        · subst hcd
          simp [wordHits, Regex.hits, List.prefix_append_right_inj, List.drop_append]
        · simp [wordHits, Regex.hits, hdrop, hcd, List.prefix_append_right_inj]
  · have hwc : ¬ (w ++ [c]) <+: t := fun h => hw ((List.prefix_append w [c]).trans h)
    simp [wordHits, hw, hwc]

theorem Regex.spells_word (w : Text) : (Regex.word w).Spells [w] (fun _ => []) := by
  intro t
  rw [List.flatMap_singleton]
  induction w using List.reverseRecOn with
  | nil => simp [Regex.word, Regex.append, Regex.hits, wordHits]
  | append_singleton w c ih =>
      have hword : Regex.word (w ++ [c]) = .seq (.word w) (.lit c) := by
        simp [Regex.word, Regex.append]
      rw [hword, Regex.hits, ih, wordHits_append_lit]

theorem Regex.Spells.alt {vs : List Text} {s : Regex} (hr : r.Spells ws f) (hs : s.Spells vs f) :
    (Regex.alt r s).Spells (ws ++ vs) f := by
  intro t
  rw [Regex.hits, hr, hs, List.flatMap_append]

theorem Regex.spells_words (hne : ws ≠ []) : (Regex.words ws).Spells ws (fun _ => []) := by
  obtain ⟨w, vs, rfl⟩ := List.exists_cons_of_ne_nil hne
  induction vs using List.reverseRecOn with
  | nil => exact Regex.spells_word w
  | append_singleton vs v ih =>
      have hwords : Regex.words (w :: (vs ++ [v])) = .alt (.words (w :: vs)) (.word v) := by
        simp [Regex.words]
      rw [hwords]
      exact (ih (by simp)).alt (Regex.spells_word v)

/-- Putting words into a group records the word that matched. -/
theorem Regex.Spells.group (n : Nat) (hr : r.Spells ws f) :
    (Regex.seq .eps (.group n r)).Spells ws (fun w => f w ++ [(n, w)]) := by
  intro t
  simp only [Regex.hits, List.flatMap_cons, List.flatMap_nil, List.append_nil, List.nil_append,
    List.map_map]
  rw [hr, List.map_flatMap]
  congr 1
  funext w
  by_cases hw : w <+: t <;> simp [wordHits, hw]

/-- At one position: the first hit is a word that is a prefix of the text, and there is none iff
no word is. -/
theorem Regex.Spells.head?_eq_none (hr : r.Spells ws f) :
    (r.hits t).head? = none ↔ ∀ w ∈ ws, ¬ w <+: t := by
  rw [List.head?_eq_none_iff, hr, List.flatMap_eq_nil_iff]
  constructor
  · intro h w hw hpre
    have := h w hw
    simp [wordHits, hpre] at this
  · intro h w hw
    simp [wordHits, h w hw]

theorem Regex.Spells.of_head? (hr : r.Spells ws f) {h : Hit} (hh : (r.hits t).head? = some h) :
    h.text ∈ ws ∧ h.text <+: t ∧ h.groups = f h.text := by
  have hmem := List.mem_of_mem_head? hh
  rw [hr, List.mem_flatMap] at hmem
  obtain ⟨w, hw, hhit⟩ := hmem
  by_cases hpre : w <+: t
  · simp only [wordHits, hpre, ↓reduceIte, List.mem_singleton] at hhit
    subst hhit
    exact ⟨hw, hpre, rfl⟩
  · simp [wordHits, hpre] at hhit

theorem Regex.Spells.searchFrom_eq_none (hr : r.Spells ws f) (i : Nat) :
    r.searchFrom i t = none ↔ ∀ w ∈ ws, ¬ w <:+: t := by
  induction t generalizing i with
  | nil =>
      rw [Regex.searchFrom]
      cases hh : (r.hits []).head? with
      | none =>
          have hnone := hr.head?_eq_none.mp hh
          simpa using hnone
      | some h =>
          obtain ⟨hw, hpre, -⟩ := hr.of_head? hh
          simp only [reduceCtorEq, false_iff, not_forall, not_not]
          exact ⟨h.text, hw, hpre.isInfix⟩
  | cons c t ih =>
      rw [Regex.searchFrom]
      cases hh : (r.hits (c :: t)).head? with
      | none =>
          have hnone := hr.head?_eq_none.mp hh
          simp only [ih]
          constructor
          · intro h w hw hinf
            rcases List.infix_cons_iff.mp hinf with hpre | hinf
            · exact hnone w hw hpre
            · exact h w hw hinf
          · intro h w hw hinf
            exact h w hw (List.infix_cons_iff.mpr (Or.inr hinf))
      | some h =>
          obtain ⟨hw, hpre, -⟩ := hr.of_head? hh
          simp only [reduceCtorEq, false_iff, not_forall, not_not]
          exact ⟨h.text, hw, hpre.isInfix⟩

/-- A search from index `i` on ends at the least index where a word starts. -/
theorem Regex.Spells.searchFrom_eq_some (hr : r.Spells ws f) {i k : Nat} {h : Hit}
    (hs : r.searchFrom i t = some (k, h)) :
    ∃ j, k = i + j ∧ FirstAt ws t j h.text ∧ h.groups = f h.text := by
  induction t generalizing i with
  | nil =>
      rw [Regex.searchFrom] at hs
      cases hh : (r.hits []).head? with
      | none => simp [hh] at hs
      | some h' =>
          simp only [hh, Option.some.injEq, Prod.mk.injEq] at hs
          obtain ⟨rfl, rfl⟩ := hs
          obtain ⟨hw, hpre, hg⟩ := hr.of_head? hh
          exact ⟨0, rfl, ⟨hw, occursAt_zero.mpr hpre, fun j hj => absurd hj (by omega)⟩, hg⟩
  | cons c t ih =>
      rw [Regex.searchFrom] at hs
      cases hh : (r.hits (c :: t)).head? with
      | none =>
          simp only [hh] at hs
          have hnone := hr.head?_eq_none.mp hh
          obtain ⟨j, rfl, hfirst, hg⟩ := ih hs
          refine ⟨j + 1, by omega, ⟨hfirst.mem, occursAt_cons_succ.mpr hfirst.occurs, ?_⟩, hg⟩
          intro k hk v hv hocc
          cases k with
          | zero => exact hnone v hv (occursAt_zero.mp hocc)
          | succ k => exact hfirst.least k (by omega) v hv (occursAt_cons_succ.mp hocc)
      | some h' =>
          simp only [hh, Option.some.injEq, Prod.mk.injEq] at hs
          obtain ⟨rfl, rfl⟩ := hs
          obtain ⟨hw, hpre, hg⟩ := hr.of_head? hh
          exact ⟨0, rfl, ⟨hw, occursAt_zero.mpr hpre, fun j hj => absurd hj (by omega)⟩, hg⟩

/-- **A search fails iff no word is a substring.** -/
theorem Pattern.search_eq_none_iff (hp : p.regex.Spells ws f) :
    p.search t = none ↔ ∀ w ∈ ws, ¬ w <:+: t := by
  rw [Pattern.search, Option.map_eq_none_iff, hp.searchFrom_eq_none]

/-- **A search that succeeds returns a first word of the vocabulary.** -/
theorem Pattern.firstAt_of_search (hp : p.regex.Spells ws f) {m : Match}
    (hm : p.search t = some m) :
    FirstAt ws t m.start m.text ∧ m.captures = f m.text ∧ m.groups = p.groups := by
  rw [Pattern.search, Option.map_eq_some_iff] at hm
  obtain ⟨⟨i, h⟩, hs, rfl⟩ := hm
  obtain ⟨j, hj, hfirst, hg⟩ := hp.searchFrom_eq_some hs
  rw [Nat.zero_add] at hj
  subst hj
  exact ⟨hfirst, hg, rfl⟩

end Searching

end CryptoScan.Python
