import Mathlib.Data.List.DropRight
import Mathlib.Data.List.Infix
import Mathlib.Data.Nat.Find
import Mathlib.Order.Bounds.Basic

/-!
# Python text: stripping, occurrences, and the leftmost word of a vocabulary

A Python `str` is a list of characters. This module has the exceptions a Python program can
raise, the little of `str` that a program scanning free text for known words relies on, and the
theory of *where a word occurs*:

* `strip` — both ends of a text lose their whitespace, by Python's own notion of it (`isSpace`);
* `OccursAt w t i` — the word `w` starts at index `i` of `t`;
* `FirstAt ws t i w` — of all the words of the vocabulary `ws`, `w` occurs at `i` and nothing of
  the vocabulary occurs earlier. With a **prefix-free** vocabulary the word is determined by the
  text (`FirstAt.unique`); without prefix-freeness only the index is.

`strip` cuts `t` into `g ++ strip t ++ h` with both margins blank, so a word that contains no
blank can neither start in a margin nor reach into one. Hence stripping moves every occurrence by
the length of the left margin and loses none (`firstAt_iff_stripBy`).
-/

namespace CryptoScan.Python

/-- A Python `str`. -/
abbrev Text := List Char

/-- A string literal as a `Text`. -/
def txt (s : String) : Text := s.toList

/-- The characters `str.strip` removes: those Python's `str.isspace` accepts. -/
def isSpace (c : Char) : Bool :=
  let n := c.toNat
  (9 ≤ n && n ≤ 13) || (28 ≤ n && n ≤ 32) || n == 0x85 || n == 0xA0 || n == 0x1680 ||
    (0x2000 ≤ n && n ≤ 0x200A) || n == 0x2028 || n == 0x2029 || n == 0x202F || n == 0x205F ||
    n == 0x3000

/-- The exceptions of the modelled code. `external` is whatever a call that leaves the program
raises: the file system, the network, a client library. -/
inductive Exc where
  | valueError (msg : Text)
  | indexError (msg : Text)
  | keyError (key : Text)
  | typeError (msg : Text)
  | attributeError (msg : Text)
  | zeroDivisionError (msg : Text)
  | overflowError (msg : Text)
  | reError (pattern : Text)
  | stopIteration
  | exception (msg : Text)
  | external (msg : Text)
  deriving DecidableEq, Repr

@[simp] theorem ok_bind {ε α β : Type} (a : α) (f : α → Except ε β) :
    (Except.ok a >>= f) = f a := rfl

theorem exists_of_bind_eq_ok {ε α β : Type} {x : Except ε α} {f : α → Except ε β} {b : β}
    (h : x >>= f = .ok b) : ∃ a, x = .ok a ∧ f a = .ok b := by
  cases x with
  | error e => cases h
  | ok a => exact ⟨a, rfl, h⟩

theorem bind_eq_ok_iff {ε α β : Type} {x : Except ε α} {f : α → Except ε β} {b : β} :
    x >>= f = .ok b ↔ ∃ a, x = .ok a ∧ f a = .ok b := by
  refine ⟨exists_of_bind_eq_ok, ?_⟩
  rintro ⟨a, rfl, h⟩
  exact h

/-! ## Stripping -/

section Strip

variable {α : Type} {p : α → Bool} {l : List α}

/-- Drop the `p`-elements at both ends. -/
def stripBy (p : α → Bool) (l : List α) : List α := (l.dropWhile p).rdropWhile p

/-- `str.strip()`. -/
def strip (t : Text) : Text := stripBy isSpace t

/-- The left margin that `stripBy` removes. -/
def leftMargin (p : α → Bool) (l : List α) : List α := l.takeWhile p

/-- `stripBy` cuts a list into two margins of `p`-elements and what it keeps. -/
theorem stripBy_margins (p : α → Bool) (l : List α) :
    ∃ h, l = leftMargin p l ++ stripBy p l ++ h ∧
      (∀ a ∈ leftMargin p l, p a) ∧ ∀ a ∈ h, p a := by
  refine ⟨(l.dropWhile p).rtakeWhile p, ?_, ?_, ?_⟩
  · rw [List.append_assoc, stripBy, List.rdropWhile_append_rtakeWhile, leftMargin,
      List.takeWhile_append_dropWhile]
  · intro a ha
    exact List.mem_takeWhile_imp ha
  · intro a ha
    exact List.mem_rtakeWhile_imp ha

/-- A list without `p`-elements at its ends is kept as it is. -/
theorem stripBy_eq_self (hp : ∀ a ∈ l, p a = false) : stripBy p l = l := by
  have hd : l.dropWhile p = l := by
    cases l with
    | nil => rfl
    | cons a as => rw [List.dropWhile_cons_of_neg (by simp [hp a (by simp)])]
  rw [stripBy, hd, List.rdropWhile_eq_self_iff]
  intro hl
  simp [hp _ (List.getLast_mem hl)]

/-- Stripping twice is stripping once. -/
theorem stripBy_stripBy (p : α → Bool) (l : List α) : stripBy p (stripBy p l) = stripBy p l := by
  have hfront : (stripBy p l).dropWhile p = stripBy p l := by
    cases hm : stripBy p l with
    | nil => rfl
    | cons a m =>
        -- the first letter kept is the first letter after the left margin
        obtain ⟨rest, hrest⟩ := List.rdropWhile_prefix p (l.dropWhile p)
        change stripBy p l ++ rest = _ at hrest
        have hhead := List.head?_dropWhile_not p l
        rw [← hrest, hm] at hhead
        rw [List.dropWhile_cons_of_neg (by simpa using hhead)]
  rw [stripBy, hfront, stripBy]
  exact List.rdropWhile_idempotent p _

end Strip

/-! ## Occurrences -/

section Occurrences

variable {α : Type} {w u v t x y : List α} {i j : Nat}

/-- The word `w` starts at index `i` of `t`. -/
def OccursAt (w t : List α) (i : Nat) : Prop := w <+: t.drop i

instance [DecidableEq α] (w t : List α) (i : Nat) : Decidable (OccursAt w t i) :=
  inferInstanceAs (Decidable (w <+: t.drop i))

@[simp] theorem occursAt_zero : OccursAt w t 0 ↔ w <+: t := by
  simp [OccursAt]

@[simp] theorem occursAt_cons_succ {a : α} : OccursAt w (a :: t) (i + 1) ↔ OccursAt w t i := by
  simp [OccursAt]

/-- A word occurring at `i` splits the text around it. -/
theorem OccursAt.split (h : OccursAt w t i) (hi : i ≤ t.length) :
    ∃ x y, t = x ++ w ++ y ∧ x.length = i := by
  obtain ⟨y, hy⟩ := h
  refine ⟨t.take i, y, ?_, by simpa using hi⟩
  rw [List.append_assoc, hy, List.take_append_drop]

theorem occursAt_append (x w y : List α) : OccursAt w (x ++ w ++ y) x.length := by
  rw [OccursAt, List.append_assoc, List.drop_left]
  exact List.prefix_append w y

/-- Past the end only the empty word occurs. -/
theorem OccursAt.le_length (h : OccursAt w t i) (hw : w ≠ []) : i ≤ t.length := by
  by_contra hlt
  rw [OccursAt, List.drop_eq_nil_of_le (by omega)] at h
  exact hw (List.prefix_nil.mp h)

/-- A non-empty word ends inside the text. -/
theorem OccursAt.add_length_le (h : OccursAt w t i) (hw : w ≠ []) :
    i + w.length ≤ t.length := by
  have hlen : w.length ≤ t.length - i := by simpa using List.IsPrefix.length_le h
  have hi := h.le_length hw
  omega

/-- A word is a substring iff it starts somewhere. -/
theorem infix_iff_occursAt : w <:+: t ↔ ∃ i ≤ t.length, OccursAt w t i := by
  constructor
  · rintro ⟨x, y, rfl⟩
    exact ⟨x.length, by simp, occursAt_append x w y⟩
  · rintro ⟨i, hi, h⟩
    obtain ⟨x, y, rfl, -⟩ := h.split hi
    exact ⟨x, y, rfl⟩

theorem OccursAt.isInfix (h : OccursAt w t i) : w <:+: t :=
  (List.IsPrefix.isInfix h).trans (List.drop_suffix i t).isInfix

/-- The `k`-th letter of a word that occurs at `i` is the text's letter at `i + k`. -/
theorem OccursAt.getElem? (h : OccursAt w t i) {k : Nat} (hk : k < w.length) :
    t[i + k]? = w[k]? := by
  obtain ⟨y, hy⟩ := h
  rw [← List.getElem?_drop, ← hy, List.getElem?_append_left hk]

/-- Without its first letter a word occurs one further. -/
theorem OccursAt.tail {a : α} (h : OccursAt (a :: w) t i) : OccursAt w t (i + 1) := by
  obtain ⟨y, hy⟩ := h
  refine ⟨y, ?_⟩
  rw [← List.tail_drop, ← hy]
  rfl

/-- Occurrences inside the middle part of a text are its own, shifted. -/
theorem occursAt_append_left_add (x : List α) (hi : i + w.length ≤ t.length) :
    OccursAt w (x ++ t ++ y) (x.length + i) ↔ OccursAt w t i := by
  rw [OccursAt, OccursAt, List.append_assoc, List.drop_append,
    List.drop_eq_nil_of_le (by omega), List.nil_append, Nat.add_sub_cancel_left,
    List.drop_append_of_le_length (by omega)]
  constructor
  · intro h
    exact List.prefix_of_prefix_length_le h (List.prefix_append _ _) (by simp; omega)
  · intro h
    exact h.trans (List.prefix_append _ _)

/-- More text behind does not matter for a word that is there. -/
theorem OccursAt.append_right (h : OccursAt w t i) (y : List α) : OccursAt w (t ++ y) i := by
  rw [OccursAt, List.drop_append]
  exact h.trans (List.prefix_append _ _)

theorem OccursAt.of_append_right (h : OccursAt w (t ++ y) i) (hi : i + w.length ≤ t.length) :
    OccursAt w t i := by
  have hmid := occursAt_append_left_add (y := y) [] hi
  simpa using hmid.mp (by simpa using h)

/-- Of two words that occur in a text, the one that starts and ends within the other occurs in it. -/
theorem OccursAt.within (hv : OccursAt v t j) (hw : OccursAt w t i) (hji : j ≤ i)
    (hend : i + w.length ≤ j + v.length) (hj : j ≤ t.length) : OccursAt w v (i - j) := by
  obtain ⟨x, y, rfl, hx⟩ := hv.split hj
  apply (occursAt_append_left_add (y := y) x (by omega)).mp
  rwa [hx, Nat.add_sub_cancel' hji]

end Occurrences

/-! ## The first word of a vocabulary -/

section Vocabulary

variable {α : Type} {ws vs : List (List α)} {w v s t : List α} {i j : Nat}

/-- No word of the vocabulary is a proper prefix of another. -/
def PrefixFree (ws : List (List α)) : Prop := ∀ u ∈ ws, ∀ v ∈ ws, u <+: v → u = v

instance [DecidableEq α] (ws : List (List α)) : Decidable (PrefixFree ws) :=
  inferInstanceAs (Decidable (∀ u ∈ ws, ∀ v ∈ ws, u <+: v → u = v))

/-- `w` is a word of `ws` that starts at index `i` of `t`, and no word of `ws` starts earlier. -/
structure FirstAt (ws : List (List α)) (t : List α) (i : Nat) (w : List α) : Prop where
  mem : w ∈ ws
  occurs : OccursAt w t i
  least : ∀ j < i, ∀ v ∈ ws, ¬ OccursAt v t j

/-- The index of the first word is the least index at which any word starts. -/
theorem FirstAt.isLeast (h : FirstAt ws t i w) : IsLeast {j | ∃ v ∈ ws, OccursAt v t j} i := by
  refine ⟨⟨w, h.mem, h.occurs⟩, ?_⟩
  rintro j ⟨v, hv, hocc⟩
  by_contra hlt
  exact h.least j (by omega) v hv hocc

/-- Two words of a prefix-free vocabulary that start at one index are the same word. -/
theorem PrefixFree.eq_of_occursAt (hpf : PrefixFree ws) (hw : w ∈ ws) (hv : v ∈ ws)
    (h : OccursAt w t i) (h' : OccursAt v t i) : w = v := by
  rcases List.prefix_or_prefix_of_prefix h h' with hwv | hvw
  · exact hpf w hw v hv hwv
  · exact (hpf v hv w hw hvw).symm

/-- **A prefix-free vocabulary determines its first word**: index and word depend on the text
alone, not on the order in which the words are tried. -/
theorem FirstAt.unique (hpf : PrefixFree ws) (h : FirstAt ws t i w) (h' : FirstAt ws t j v) :
    i = j ∧ w = v := by
  have hij : i = j := h.isLeast.unique h'.isLeast
  subst hij
  exact ⟨rfl, hpf.eq_of_occursAt h.mem h'.mem h.occurs h'.occurs⟩

/-- A text that contains a word of the vocabulary has a first one. -/
theorem exists_firstAt (h : ∃ w ∈ ws, w <:+: t) : ∃ i w, FirstAt ws t i w := by
  classical
  have hex : ∃ i, ∃ w ∈ ws, OccursAt w t i := by
    obtain ⟨w, hw, hinf⟩ := h
    obtain ⟨i, -, hocc⟩ := infix_iff_occursAt.mp hinf
    exact ⟨i, w, hw, hocc⟩
  obtain ⟨w, hw, hocc⟩ := Nat.find_spec hex
  refine ⟨Nat.find hex, w, hw, hocc, ?_⟩
  intro j hj v hv hj'
  exact Nat.find_min hex hj ⟨v, hv, hj'⟩

/-- A word inside another one, with letters of it on both sides. -/
theorem OccursAt.inside (h : OccursAt w v i) (hi : 0 < i) (hend : i + w.length < v.length) :
    w <:+: v.tail.dropLast := by
  obtain ⟨x, y, rfl, hx⟩ := h.split (by omega)
  rw [List.length_append, List.length_append] at hend
  obtain ⟨a, x', rfl⟩ := List.exists_cons_of_length_pos (l := x) (by omega)
  obtain ⟨y', b, rfl⟩ : ∃ y' b, y = y' ++ [b] :=
    (List.eq_nil_or_concat' y).resolve_left fun hy => by simp [hy, hx] at hend
  refine ⟨x', y', ?_⟩
  simp [← List.append_assoc]

/-- A word that reaches from one part of a text into the next is cut in two. -/
theorem cut_of_append_eq {u z : List α} (h : s ++ t = u ++ v ++ z) (hu : u.length ≤ s.length)
    (hv : s.length ≤ u.length + v.length) : ∃ x y, s = u ++ x ∧ t = y ++ z ∧ x ++ y = v := by
  have hus : u <+: s := by
    apply List.prefix_of_prefix_length_le _ (List.prefix_append s t) hu
    rw [h, List.append_assoc]
    exact List.prefix_append u _
  obtain ⟨x, rfl⟩ := hus
  rw [List.append_assoc, List.append_assoc] at h
  have hrest : x ++ t = v ++ z := List.append_cancel_left h
  have hxv : x <+: v := by
    apply List.prefix_of_prefix_length_le (List.prefix_append x t) _ (by simpa using hv)
    rw [hrest]
    exact List.prefix_append v z
  obtain ⟨y, rfl⟩ := hxv
  rw [List.append_assoc] at hrest
  exact ⟨x, y, rfl, List.append_cancel_left hrest, rfl⟩

/-- **The first word of a longer text.** It stays the same, unless a word that starts before it is cut
by the end of the old text into `x` and `y`; then it is inside `x`. -/
theorem FirstAt.append (hpf : PrefixFree ws) (h : FirstAt ws s i w) (hw : w ≠ []) (t : List α) :
    FirstAt ws (s ++ t) i w ∨
      ∃ u x y z k, s = u ++ x ∧ t = y ++ z ∧ y ≠ [] ∧ FirstAt ws (s ++ t) u.length (x ++ y) ∧
        0 < k ∧ i = u.length + k ∧ OccursAt w x k := by
  have hend := h.occurs.add_length_le hw
  have hocc : OccursAt w (s ++ t) i := h.occurs.append_right t
  obtain ⟨j, v, hf⟩ := exists_firstAt ⟨w, h.mem, hocc.isInfix⟩
  have hji : j ≤ i := by
    by_contra hlt
    exact hf.least i (by omega) w h.mem hocc
  by_cases heq : j = i
  · left
    subst heq
    rwa [hpf.eq_of_occursAt h.mem hf.mem hocc hf.occurs]
  · right
    -- `v` does not occur in the old text, so it reaches over its end
    have hlong : s.length < j + v.length := by
      by_contra hle
      exact h.least j (by omega) v hf.mem (hf.occurs.of_append_right (by omega))
    obtain ⟨u, z, hsplit, hu⟩ := hf.occurs.split (by simp; omega)
    obtain ⟨x, y, rfl, rfl, rfl⟩ := cut_of_append_eq hsplit (by omega) (by omega)
    subst hu
    refine ⟨u, x, y, z, i - u.length, rfl, rfl, ?_, hf, by omega, by omega, ?_⟩
    · rintro rfl
      simp at hlong
    · have hocc' := h.occurs
      rw [← List.append_nil (u ++ x), ← Nat.add_sub_cancel' hji] at hocc'
      rw [List.length_append] at hend
      exact (occursAt_append_left_add u (by omega)).mp hocc'

/-- Being first depends on the vocabulary's members only. -/
theorem FirstAt.of_mem_iff (hmem : ∀ u, u ∈ ws ↔ u ∈ vs) (h : FirstAt ws t i w) :
    FirstAt vs t i w :=
  ⟨(hmem w).mp h.mem, h.occurs, fun j hj u hu => h.least j hj u ((hmem u).mpr hu)⟩

theorem PrefixFree.of_mem_iff (hmem : ∀ u, u ∈ ws ↔ u ∈ vs) (h : PrefixFree ws) :
    PrefixFree vs :=
  fun u hu v hv => h u ((hmem u).mpr hu) v ((hmem v).mpr hv)

end Vocabulary

/-! ## Reading text back -/

section ReadBack

variable {α : Type} {sep f f' c c' : List α}

/-- **A separator that comes last splits a text in one way only.** -/
theorem append_sep_injective (hc : ∀ k > 0, ¬ OccursAt sep (sep ++ c) k)
    (hc' : ∀ k > 0, ¬ OccursAt sep (sep ++ c') k) (h : f ++ sep ++ c = f' ++ sep ++ c') :
    f = f' ∧ c = c' := by
  -- the separator of one text, seen in the other, sits at the same place
  have hle : ∀ {f c f' c' : List α}, (∀ k > 0, ¬ OccursAt sep (sep ++ c) k) →
      f ++ sep ++ c = f' ++ sep ++ c' → f'.length ≤ f.length := by
    intro f c f' c' hc h
    by_contra hlt
    have hocc : OccursAt sep (f ++ sep ++ c) f'.length := by
      rw [h]
      exact occursAt_append f' sep c'
    apply hc (f'.length - f.length) (by omega)
    rwa [OccursAt, List.append_assoc, List.drop_append, List.drop_eq_nil_of_le (by omega),
      List.nil_append] at hocc
  have hlen : f.length = f'.length := le_antisymm (hle hc' h.symm) (hle hc h)
  rw [List.append_assoc, List.append_assoc] at h
  obtain ⟨hf, hrest⟩ := List.append_inj h hlen
  exact ⟨hf, List.append_cancel_left hrest⟩

/-- Items that a function keeps apart can be read back from their images, in order. -/
theorem map_injective_on {β γ : Type} {g : β → γ} {P : β → Prop} {xs ys : List β}
    (hg : ∀ x y, P x → P y → g x = g y → x = y) (hx : ∀ x ∈ xs, P x) (hy : ∀ y ∈ ys, P y)
    (h : xs.map g = ys.map g) : xs = ys := by
  induction xs generalizing ys with
  | nil => exact (List.map_eq_nil_iff.mp h.symm).symm
  | cons x xs ih =>
      obtain ⟨y, ys', rfl, hxy, hrest⟩ := List.map_eq_cons_iff.mp h.symm
      rw [hg x y (hx x List.mem_cons_self) (hy y List.mem_cons_self) hxy.symm,
        ih (fun z hz => hx z (List.mem_cons_of_mem x hz))
          (fun z hz => hy z (List.mem_cons_of_mem y hz)) hrest.symm]

/-- What `print` writes for these lines. -/
def printed (lines : List Text) : Text := lines.flatMap (· ++ ['\n'])

theorem splitOn_printed {lines : List Text} (h : ∀ l ∈ lines, '\n' ∉ l) :
    (printed lines).splitOn '\n' = lines ++ [[]] := by
  induction lines with
  | nil => rfl
  | cons l ls ih =>
      show (l ++ ['\n'] ++ printed ls).splitOn '\n' = _
      rw [List.append_assoc, List.singleton_append, List.splitOn_append_cons_self,
        ih fun m hm => h m (List.mem_cons_of_mem l hm),
        List.splitOn_eq_singleton (h l List.mem_cons_self)]
      rfl

/-- Lines without line breaks can be read back. -/
theorem printed_injective {ls ls' : List Text} (h : ∀ l ∈ ls, '\n' ∉ l) (h' : ∀ l ∈ ls', '\n' ∉ l)
    (heq : printed ls = printed ls') : ls = ls' := by
  have hsplit := congrArg (List.splitOn '\n') heq
  rw [splitOn_printed h, splitOn_printed h'] at hsplit
  exact List.append_cancel_right hsplit

end ReadBack

/-! ## Stripping keeps every blank-free word in place -/

section StripOccurrences

variable {α : Type} {p : α → Bool} {ws : List (List α)} {w t : List α} {i : Nat}

/-- A non-empty word without `p`-elements. -/
def Solid (p : α → Bool) (w : List α) : Prop := w ≠ [] ∧ ∀ a ∈ w, p a = false

instance [DecidableEq α] (p : α → Bool) (w : List α) : Decidable (Solid p w) :=
  inferInstanceAs (Decidable (w ≠ [] ∧ ∀ a ∈ w, p a = false))

/-- The letter of a solid word is no margin letter: where `t` has a `p`-element the word is not. -/
theorem Solid.not_p_of_occursAt (hw : Solid p w) (h : OccursAt w t i) {k : Nat}
    (hk : k < w.length) {a : α} (ha : t[i + k]? = some a) : p a = false := by
  rw [h.getElem? hk] at ha
  exact hw.2 a (List.mem_of_getElem? ha)

/-- A solid word occurs in a text exactly where it occurs in the stripped text, moved by the
left margin. -/
theorem occursAt_iff_stripBy (hw : Solid p w) :
    OccursAt w t i ↔
      ∃ j, i = (leftMargin p t).length + j ∧ OccursAt w (stripBy p t) j := by
  obtain ⟨h, hcut, hg, hh⟩ := stripBy_margins p t
  generalize hgm : leftMargin p t = g at *
  generalize hmm : stripBy p t = m at *
  subst hcut
  have hpos : 0 < w.length := List.length_pos_iff.mpr hw.1
  constructor
  · intro hocc
    have hend := hocc.add_length_le hw.1
    -- the first letter is not in the left margin
    have hleft : g.length ≤ i := by
      by_contra hlt
      have hget : (g ++ m ++ h)[i + 0]? = some g[i] := by
        rw [Nat.add_zero, List.append_assoc, List.getElem?_append_left (by omega),
          List.getElem?_eq_getElem]
      have hf := hw.not_p_of_occursAt hocc hpos hget
      simp [hg g[i] (List.getElem_mem _)] at hf
    -- and the last one is not in the right margin
    have hright : i - g.length + w.length ≤ m.length := by
      by_contra hlt
      obtain ⟨a, ha⟩ : ∃ a, (g ++ m ++ h)[i + (w.length - 1)]? = some a :=
        ⟨_, List.getElem?_eq_getElem (by omega)⟩
      have hah : a ∈ h := by
        rw [List.getElem?_append_right (by simp; omega)] at ha
        exact List.mem_of_getElem? ha
      have hf := hw.not_p_of_occursAt hocc (by omega) ha
      simp [hh a hah] at hf
    refine ⟨i - g.length, by omega, ?_⟩
    rw [← occursAt_append_left_add (y := h) g hright]
    rwa [Nat.add_sub_cancel' hleft]
  · rintro ⟨j, rfl, hocc⟩
    exact (occursAt_append_left_add g (hocc.add_length_le hw.1)).mpr hocc

/-- A solid word is a substring of a text iff it is one of the stripped text. -/
theorem infix_stripBy_iff (hw : Solid p w) : w <:+: stripBy p t ↔ w <:+: t := by
  constructor
  · intro h
    obtain ⟨r, hcut, -, -⟩ := stripBy_margins p t
    exact h.trans ⟨leftMargin p t, r, hcut.symm⟩
  · intro h
    obtain ⟨i, -, hocc⟩ := infix_iff_occursAt.mp h
    obtain ⟨j, -, hj⟩ := (occursAt_iff_stripBy hw).mp hocc
    exact hj.isInfix

/-- **Stripping does not change which word is first.** -/
theorem firstAt_iff_stripBy (hws : ∀ v ∈ ws, Solid p v) :
    FirstAt ws t i w ↔
      ∃ j, i = (leftMargin p t).length + j ∧ FirstAt ws (stripBy p t) j w := by
  constructor
  · intro h
    obtain ⟨j, rfl, hj⟩ := (occursAt_iff_stripBy (hws w h.mem)).mp h.occurs
    refine ⟨j, rfl, h.mem, hj, ?_⟩
    intro k hk v hv hocc
    exact h.least _ (by omega) v hv ((occursAt_iff_stripBy (hws v hv)).mpr ⟨k, rfl, hocc⟩)
  · rintro ⟨j, rfl, h⟩
    refine ⟨h.mem, (occursAt_iff_stripBy (hws w h.mem)).mpr ⟨j, rfl, h.occurs⟩, ?_⟩
    intro k hk v hv hocc
    obtain ⟨k', rfl, hk'⟩ := (occursAt_iff_stripBy (hws v hv)).mp hocc
    exact h.least k' (by omega) v hv hk'

end StripOccurrences

end CryptoScan.Python
