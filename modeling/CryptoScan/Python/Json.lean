import CryptoScan.Python.Float
import CryptoScan.Python.Text

/-!
# `json.dumps(value, indent=4)`

Strings, numbers, lists and dictionaries, written over several lines in ASCII. A dictionary is the
list of its members in the order they are written in; with `sort_keys=True` that is the order of
the keys.

The result is `dumps_injective`: the text determines the value. There is no reader here to compare
the writer with. What is proved instead is that at each level of the format one part ends where the
next begins. A *cancellation* law `f a ++ r = f b ++ r' → a = b ∧ r = r'` says this of a writer `f`:
`escapeChar_cancel` for a character, `quoted_cancel` for a string, `dumps_cancel` for a value. Only
numbers need help from what follows them (`Stops`).
-/

namespace CryptoScan.Python

/-! ## Strings -/

/-- The characters that are escaped with a letter of their own. -/
def letterEscapes : List (Char × Char) :=
  [('\\', '\\'), ('"', '"'), ('\x08', 'b'), ('\x0c', 'f'), ('\n', 'n'), ('\r', 'r'), ('\t', 't')]

def hexDigit (n : Nat) : Char := Char.ofNat (if n < 10 then 0x30 + n else 0x57 + n)

/-- `\uXXXX`. -/
def unitEscape (n : Nat) : Text :=
  ['\\', 'u', hexDigit (n / 0x1000 % 16), hexDigit (n / 0x100 % 16), hexDigit (n / 0x10 % 16),
    hexDigit (n % 16)]

/-- The code units of a character, two for those from `0x10000` on. -/
def utf16 (c : Char) : List Nat :=
  if c.toNat < 0x10000 then [c.toNat]
  else [0xd800 + (c.toNat - 0x10000) / 0x400, 0xdc00 + (c.toNat - 0x10000) % 0x400]

/-- How a character is written in a string, with `ensure_ascii=True`. -/
def escapeChar (c : Char) : Text :=
  match letterEscapes.lookup c with
  | some letter => ['\\', letter]
  | none =>
      if ' ' ≤ c ∧ c ≤ '~' then [c]
      else (utf16 c).flatMap unitEscape

def quoted (s : Text) : Text := '"' :: s.flatMap escapeChar ++ ['"']

section Strings

variable {c c' : Char} {s s' r r' : Text} {n n' : Nat}

theorem hexDigit_injective : ∀ a < 16, ∀ b < 16, hexDigit a = hexDigit b → a = b := by decide

theorem unitEscape_cancel (hn : n < 0x10000) (hn' : n' < 0x10000)
    (h : unitEscape n ++ r = unitEscape n' ++ r') : n = n' ∧ r = r' := by
  simp only [unitEscape, List.cons_append, List.nil_append, List.cons.injEq, true_and] at h
  obtain ⟨h₃, h₂, h₁, h₀, hr⟩ := h
  have hdigit : ∀ {a b : Nat}, hexDigit (a % 16) = hexDigit (b % 16) → a % 16 = b % 16 :=
    fun h => hexDigit_injective _ (Nat.mod_lt _ (by decide)) _ (Nat.mod_lt _ (by decide)) h
  have h₃ := hdigit h₃
  have h₂ := hdigit h₂
  have h₁ := hdigit h₁
  have h₀ := hdigit h₀
  exact ⟨by omega, hr⟩

theorem toNat_valid (c : Char) :
    c.toNat < 0xd800 ∨ (0xdfff < c.toNat ∧ c.toNat < 0x110000) := c.valid

/-- No character has the first half of a pair as its only code unit. -/
theorem utf16_cancel (h : (utf16 c).flatMap unitEscape ++ r = (utf16 c').flatMap unitEscape ++ r') :
    c = c' ∧ r = r' := by
  have hv := toNat_valid c
  have hv' := toNat_valid c'
  have hext : c.toNat = c'.toNat → c = c' := fun h => Char.ext (UInt32.toNat_inj.mp h)
  unfold utf16 at h
  split at h <;> split at h <;> simp only [List.flatMap_cons, List.flatMap_nil, List.append_nil,
    List.append_assoc] at h
  · obtain ⟨hn, hr⟩ := unitEscape_cancel (by omega) (by omega) h
    exact ⟨hext hn, hr⟩
  · obtain ⟨hn, -⟩ := unitEscape_cancel (by omega) (by omega) h
    omega
  · obtain ⟨hn, -⟩ := unitEscape_cancel (by omega) (by omega) h
    omega
  · obtain ⟨hhigh, h⟩ := unitEscape_cancel (by omega) (by omega) h
    obtain ⟨hlow, hr⟩ := unitEscape_cancel (by omega) (by omega) h
    exact ⟨hext (by omega), hr⟩

/-- The three ways of writing a character. -/
theorem escapeChar_cases (c : Char) :
    (∃ letter, (c, letter) ∈ letterEscapes ∧ escapeChar c = ['\\', letter]) ∨
      (c ≠ '\\' ∧ c ≠ '"' ∧ escapeChar c = [c]) ∨
      escapeChar c = (utf16 c).flatMap unitEscape := by
  unfold escapeChar
  cases hl : letterEscapes.lookup c with
  | some letter =>
      obtain ⟨l, l', heq, -⟩ := List.lookup_eq_some_iff.mp hl
      exact .inl ⟨letter, heq ▸ by simp, rfl⟩
  | none =>
      right
      by_cases hascii : ' ' ≤ c ∧ c ≤ '~'
      · left
        refine ⟨?_, ?_, if_pos hascii⟩
        · rintro rfl
          exact absurd hl (by decide)
        · rintro rfl
          exact absurd hl (by decide)
      · exact .inr (if_neg hascii)

/-- What each of the escapes starts with. -/
theorem exists_cons_units (c : Char) (r : Text) :
    ∃ t, (utf16 c).flatMap unitEscape ++ r = '\\' :: 'u' :: t := by
  unfold utf16
  split
  · exact ⟨_, rfl⟩
  · exact ⟨_, rfl⟩

theorem letter_ne_u : ∀ e ∈ letterEscapes, e.2 ≠ 'u' := by decide

theorem letterEscapes_injective :
    ∀ e ∈ letterEscapes, ∀ e' ∈ letterEscapes, e.2 = e'.2 → e = e' := by
  decide

/-- **One character is read in one way.** -/
theorem escapeChar_cancel (h : escapeChar c ++ r = escapeChar c' ++ r') : c = c' ∧ r = r' := by
  rcases escapeChar_cases c with ⟨x, hx, hc⟩ | ⟨hbackslash, -, hc⟩ | hc <;>
    rcases escapeChar_cases c' with ⟨x', hx', hc'⟩ | ⟨hbackslash', -, hc'⟩ | hc' <;>
    rw [hc, hc'] at h
  · simp only [List.cons_append, List.nil_append, List.cons.injEq, true_and] at h
    exact ⟨congrArg Prod.fst (letterEscapes_injective _ hx _ hx' h.1), h.2⟩
  · exact absurd (List.cons.inj h).1.symm hbackslash'
  · obtain ⟨t, ht⟩ := exists_cons_units c' r'
    rw [ht] at h
    exact absurd (List.cons.inj (List.cons.inj h).2).1 (letter_ne_u _ hx)
  · exact absurd (List.cons.inj h).1 hbackslash
  · exact List.cons.inj h
  · obtain ⟨t, ht⟩ := exists_cons_units c' r'
    rw [ht] at h
    exact absurd (List.cons.inj h).1 hbackslash
  · obtain ⟨t, ht⟩ := exists_cons_units c r
    rw [ht] at h
    exact absurd (List.cons.inj (List.cons.inj h).2).1.symm (letter_ne_u _ hx')
  · obtain ⟨t, ht⟩ := exists_cons_units c r
    rw [ht] at h
    exact absurd (List.cons.inj h).1.symm hbackslash'
  · exact utf16_cancel h

/-- A quote in a string is escaped. -/
theorem escapeChar_ne_quote (c : Char) (r t : Text) : escapeChar c ++ r ≠ '"' :: t := by
  intro h
  rcases escapeChar_cases c with ⟨x, -, hc⟩ | ⟨-, hquote, hc⟩ | hc <;> rw [hc] at h
  · exact absurd (List.cons.inj h).1 (by decide)
  · exact hquote (List.cons.inj h).1
  · obtain ⟨u, hu⟩ := exists_cons_units c r
    rw [hu] at h
    exact absurd (List.cons.inj h).1 (by decide)

/-- **A string ends at its quote.** -/
theorem quoted_cancel (h : quoted s ++ r = quoted s' ++ r') : s = s' ∧ r = r' := by
  have hbody : ∀ s s' : Text,
      s.flatMap escapeChar ++ '"' :: r = s'.flatMap escapeChar ++ '"' :: r' →
        s = s' ∧ r = r' := by
    clear h
    intro s
    induction s with
    | nil =>
        intro s' h
        cases s' with
        | nil => exact ⟨rfl, (List.cons.inj h).2⟩
        | cons c' s' =>
            rw [List.flatMap_cons, List.append_assoc] at h
            exact absurd h.symm (escapeChar_ne_quote c' _ _)
    | cons c s ih =>
        intro s' h
        rw [List.flatMap_cons, List.append_assoc] at h
        cases s' with
        | nil => exact absurd h (escapeChar_ne_quote c _ _)
        | cons c' s' =>
            rw [List.flatMap_cons, List.append_assoc] at h
            obtain ⟨rfl, hrest⟩ := escapeChar_cancel h
            obtain ⟨rfl, hr⟩ := ih s' hrest
            exact ⟨rfl, hr⟩
  apply hbody
  simpa [quoted] using h

end Strings

/-! ## Numbers -/

/-- The characters of `1.5e-07`, `NaN` and `-Infinity`. -/
def isNumeric (c : Char) : Bool := c.isAlphanum || c == '+' || c == '-' || c == '.'

/-- The text of a number. -/
structure Number where
  text : Text
  ne_nil : text ≠ []
  numeric : text.all isNumeric = true

/-- What follows does not go on with a number. -/
def Stops (r : Text) : Prop := ∀ x t, r = x :: t → isNumeric x = false

@[ext] theorem Number.ext {n n' : Number} (h : n.text = n'.text) : n = n' := by
  cases n; cases n'; cases h; rfl

theorem stops_cons {x : Char} (r : Text) (h : isNumeric x = false) : Stops (x :: r) := by
  rintro y t ⟨⟩
  exact h

theorem Number.takeWhile_append (n : Number) {r : Text} (hr : Stops r) :
    (n.text ++ r).takeWhile isNumeric = n.text := by
  rw [List.takeWhile_append_of_pos (List.all_eq_true.mp n.numeric)]
  cases r with
  | nil => simp
  | cons x t => simp [hr x t rfl]

/-- **A number ends where no other numeric character follows.** -/
theorem Number.cancel {n n' : Number} {r r' : Text} (hr : Stops r) (hr' : Stops r')
    (h : n.text ++ r = n'.text ++ r') : n = n' ∧ r = r' := by
  have htext : n.text = n'.text := by
    rw [← n.takeWhile_append hr, h, n'.takeWhile_append hr']
  refine ⟨Number.ext htext, ?_⟩
  rw [htext] at h
  exact List.append_cancel_left h

/-- The names of the floats that are no numbers. -/
def floatNumber (repr : ℚ → Number) : PyFloat → Number
  | .finite q => repr q
  | .posInf => ⟨['I', 'n', 'f', 'i', 'n', 'i', 't', 'y'], by decide, by decide⟩
  | .negInf => ⟨['-', 'I', 'n', 'f', 'i', 'n', 'i', 't', 'y'], by decide, by decide⟩
  | .nan => ⟨['N', 'a', 'N'], by decide, by decide⟩

/-! ## Values -/

inductive Json where
  | str (s : Text)
  | num (n : Number)
  | arr (items : List Json)
  | obj (members : List (Text × Json))

/-- The line break in front of a value at this depth. -/
def newline (level : Nat) : Text := '\n' :: List.replicate (4 * level) ' '

mutual

def dumps (level : Nat) : Json → Text
  | .str s => quoted s
  | .num n => n.text
  | .arr [] => ['[', ']']
  | .arr (v :: vs) => '[' :: newline (level + 1) ++ dumps (level + 1) v ++ dumpsItems level vs
  | .obj [] => ['\x7b', '\x7d']
  | .obj ((k, v) :: ms) =>
      '\x7b' :: newline (level + 1) ++ quoted k ++ [':', ' '] ++ dumps (level + 1) v ++
        dumpsMembers level ms

/-- The other items of a list, and its end. -/
def dumpsItems (level : Nat) : List Json → Text
  | [] => newline level ++ [']']
  | v :: vs => ',' :: newline (level + 1) ++ dumps (level + 1) v ++ dumpsItems level vs

/-- The other members of a dictionary, and its end. -/
def dumpsMembers (level : Nat) : List (Text × Json) → Text
  | [] => newline level ++ ['\x7d']
  | (k, v) :: ms =>
      ',' :: newline (level + 1) ++ quoted k ++ [':', ' '] ++ dumps (level + 1) v ++
        dumpsMembers level ms

end

inductive Json.Kind where
  | str | num | arr | obj

def Json.kind : Json → Kind
  | .str _ => .str
  | .num _ => .num
  | .arr _ => .arr
  | .obj _ => .obj

/-- The kind of a value by its first character. -/
def Json.Kind.ofChar (x : Char) : Kind :=
  if x = '"' then .str else if x = '[' then .arr else if x = '\x7b' then .obj else .num

theorem Json.Kind.ofChar_of_numeric {x : Char} (h : isNumeric x = true) : ofChar x = .num := by
  have hne : ∀ y, isNumeric y = false → x ≠ y := by
    rintro y hy rfl
    rw [h] at hy
    cases hy
  unfold ofChar
  rw [if_neg (hne '"' (by decide)), if_neg (hne '[' (by decide)), if_neg (hne '\x7b' (by decide))]

theorem exists_cons_dumps (level : Nat) (v : Json) (r : Text) :
    ∃ x t, dumps level v ++ r = x :: t ∧ Json.Kind.ofChar x = v.kind := by
  cases v with
  | str s => exact ⟨_, _, rfl, rfl⟩
  | num n =>
      obtain ⟨x, t, ht⟩ := List.exists_cons_of_ne_nil n.ne_nil
      have hx : isNumeric x = true := List.all_eq_true.mp n.numeric x (by simp [ht])
      refine ⟨x, t ++ r, ?_, Json.Kind.ofChar_of_numeric hx⟩
      rw [dumps, ht, List.cons_append]
  | arr items =>
      cases items with
      | nil => exact ⟨_, _, by rw [dumps]; rfl, rfl⟩
      | cons v vs => exact ⟨_, _, by rw [dumps]; rfl, rfl⟩
  | obj members =>
      cases members with
      | nil => exact ⟨_, _, by rw [dumps]; rfl, rfl⟩
      | cons m ms => exact ⟨_, _, by rw [dumps]; rfl, rfl⟩

theorem kind_eq_of_dumps {level : Nat} {v v' : Json} {r r' : Text}
    (h : dumps level v ++ r = dumps level v' ++ r') : v.kind = v'.kind := by
  obtain ⟨x, t, hx, hkind⟩ := exists_cons_dumps level v r
  obtain ⟨x', t', hx', hkind'⟩ := exists_cons_dumps level v' r'
  rw [hx, hx'] at h
  rw [← hkind, ← hkind', (List.cons.inj h).1]

theorem stops_dumpsItems (level : Nat) (vs : List Json) (r : Text) :
    Stops (dumpsItems level vs ++ r) := by
  cases vs with
  | nil => exact stops_cons _ (by decide)
  | cons v vs =>
      rw [dumpsItems]
      exact stops_cons _ (by decide)

theorem stops_dumpsMembers (level : Nat) (ms : List (Text × Json)) (r : Text) :
    Stops (dumpsMembers level ms ++ r) := by
  cases ms with
  | nil => exact stops_cons _ (by decide)
  | cons m ms =>
      rw [dumpsMembers]
      exact stops_cons _ (by decide)

mutual

/-- **A value is read in one way**, whatever follows it. -/
theorem dumps_cancel (level : Nat) : ∀ (v v' : Json) (r r' : Text), Stops r → Stops r' →
    dumps level v ++ r = dumps level v' ++ r' → v = v' ∧ r = r'
  | .str s, .str s', r, r', _, _, h => by
      rw [dumps, dumps] at h
      obtain ⟨rfl, hr⟩ := quoted_cancel h
      exact ⟨rfl, hr⟩
  | .num n, .num n', r, r', hr, hr', h => by
      rw [dumps, dumps] at h
      obtain ⟨rfl, hr⟩ := Number.cancel hr hr' h
      exact ⟨rfl, hr⟩
  | .arr [], .arr [], r, r', _, _, h => ⟨rfl, List.append_cancel_left h⟩
  | .arr (v :: vs), .arr (v' :: vs'), r, r', _, _, h => by
      rw [dumps, dumps] at h
      have hitems : dumpsItems level (v :: vs) ++ r = dumpsItems level (v' :: vs') ++ r' := by
        rw [dumpsItems, dumpsItems]
        exact congrArg (',' :: ·) (List.cons.inj h).2
      obtain ⟨heq, hr⟩ := dumpsItems_cancel level (v :: vs) (v' :: vs') r r' hitems
      exact ⟨congrArg Json.arr heq, hr⟩
  | .obj [], .obj [], r, r', _, _, h => ⟨rfl, List.append_cancel_left h⟩
  | .obj ((k, v) :: ms), .obj ((k', v') :: ms'), r, r', _, _, h => by
      rw [dumps, dumps] at h
      have hmembers : dumpsMembers level ((k, v) :: ms) ++ r =
          dumpsMembers level ((k', v') :: ms') ++ r' := by
        rw [dumpsMembers, dumpsMembers]
        exact congrArg (',' :: ·) (List.cons.inj h).2
      obtain ⟨heq, hr⟩ :=
        dumpsMembers_cancel level ((k, v) :: ms) ((k', v') :: ms') r r' hmembers
      exact ⟨congrArg Json.obj heq, hr⟩
  -- an empty list or dictionary is closed at once
  | .arr [], .arr (v' :: vs'), r, r', _, _, h => by
      rw [dumps, dumps] at h
      exact absurd (List.cons.inj (List.cons.inj h).2).1 (by decide)
  | .arr (v :: vs), .arr [], r, r', _, _, h => by
      rw [dumps, dumps] at h
      exact absurd (List.cons.inj (List.cons.inj h).2).1 (by decide)
  | .obj [], .obj ((k', v') :: ms'), r, r', _, _, h => by
      rw [dumps, dumps] at h
      exact absurd (List.cons.inj (List.cons.inj h).2).1 (by decide)
  | .obj ((k, v) :: ms), .obj [], r, r', _, _, h => by
      rw [dumps, dumps] at h
      exact absurd (List.cons.inj (List.cons.inj h).2).1 (by decide)
  -- otherwise the kinds differ
  | .str _, .num _, _, _, _, _, h
  | .str _, .arr _, _, _, _, _, h
  | .str _, .obj _, _, _, _, _, h
  | .num _, .str _, _, _, _, _, h
  | .num _, .arr _, _, _, _, _, h
  | .num _, .obj _, _, _, _, _, h
  | .arr _, .str _, _, _, _, _, h
  | .arr _, .num _, _, _, _, _, h
  | .arr _, .obj _, _, _, _, _, h
  | .obj _, .str _, _, _, _, _, h
  | .obj _, .num _, _, _, _, _, h
  | .obj _, .arr _, _, _, _, _, h =>
      nomatch kind_eq_of_dumps h

theorem dumpsItems_cancel (level : Nat) : ∀ (vs vs' : List Json) (r r' : Text),
    dumpsItems level vs ++ r = dumpsItems level vs' ++ r' → vs = vs' ∧ r = r'
  | [], [], r, r', h => ⟨rfl, List.append_cancel_left h⟩
  | [], _ :: _, r, r', h => by
      rw [dumpsItems, dumpsItems] at h
      exact absurd (List.cons.inj h).1 (by decide)
  | _ :: _, [], r, r', h => by
      rw [dumpsItems, dumpsItems] at h
      exact absurd (List.cons.inj h).1 (by decide)
  | v :: vs, v' :: vs', r, r', h => by
      rw [dumpsItems, dumpsItems] at h
      simp only [List.append_assoc] at h
      obtain ⟨rfl, hrest⟩ := dumps_cancel (level + 1) v v' _ _ (stops_dumpsItems level vs r)
        (stops_dumpsItems level vs' r') (List.append_cancel_left h)
      obtain ⟨rfl, hr⟩ := dumpsItems_cancel level vs vs' r r' hrest
      exact ⟨rfl, hr⟩

theorem dumpsMembers_cancel (level : Nat) : ∀ (ms ms' : List (Text × Json)) (r r' : Text),
    dumpsMembers level ms ++ r = dumpsMembers level ms' ++ r' → ms = ms' ∧ r = r'
  | [], [], r, r', h => ⟨rfl, List.append_cancel_left h⟩
  | [], _ :: _, r, r', h => by
      rw [dumpsMembers, dumpsMembers] at h
      exact absurd (List.cons.inj h).1 (by decide)
  | _ :: _, [], r, r', h => by
      rw [dumpsMembers, dumpsMembers] at h
      exact absurd (List.cons.inj h).1 (by decide)
  | (k, v) :: ms, (k', v') :: ms', r, r', h => by
      rw [dumpsMembers, dumpsMembers] at h
      simp only [List.append_assoc] at h
      obtain ⟨rfl, hvalue⟩ := quoted_cancel (List.append_cancel_left h)
      obtain ⟨rfl, hrest⟩ := dumps_cancel (level + 1) v v' _ _ (stops_dumpsMembers level ms r)
        (stops_dumpsMembers level ms' r') (List.append_cancel_left hvalue)
      obtain ⟨rfl, hr⟩ := dumpsMembers_cancel level ms ms' r r' hrest
      exact ⟨rfl, hr⟩

end

/-- **The text determines the value.** -/
theorem dumps_injective {v v' : Json} (h : dumps 0 v = dumps 0 v') : v = v' := by
  have hstops : Stops [] := fun _ _ h => nomatch h
  refine (dumps_cancel 0 v v' [] [] hstops hstops ?_).1
  rw [h]

end CryptoScan.Python
