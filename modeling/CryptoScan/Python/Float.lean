import Mathlib.Data.List.MinMax
import Mathlib.Data.Rat.Defs
import Mathlib.Order.WithBot
import Mathlib.Algebra.Order.Ring.Unbundled.Rat

/-!
# Floats under `<`, and the running minimum

A Python `float` as far as comparison sees it: finite floats compare by value (so `-0.0` and `0.0`
are one), the infinities sit at the ends, and `nan` compares with nothing.

`runningMin` is the loop

    m = float("inf"); best = None
    for a in l:
        if p(a) and key(a) < m:
            m = key(a); best = out(a)

With finite keys it finds Mathlib's `List.argmin` over the elements that satisfy `p`
(`runningMin_best`): the strict comparison keeps the earliest of several minima, and the infinite
sentinel never blocks a first candidate. `argmin_eq_some_iff_append` spells out "earliest".

With arbitrary keys the loop passes over those that are not below the sentinel, and `nan` is never
below anything (`runningMin_best_any`).
-/

namespace CryptoScan.Python

inductive PyFloat where
  | finite (q : ℚ)
  | posInf
  | negInf
  | nan
  deriving DecidableEq

namespace PyFloat

/-- `x < y`. -/
def lt : PyFloat → PyFloat → Bool
  | .finite p, .finite q => p < q
  | .finite _, .posInf => true
  | .negInf, .finite _ => true
  | .negInf, .posInf => true
  | _, _ => false

def IsFinite : PyFloat → Prop
  | .finite _ => True
  | _ => False

instance : DecidablePred IsFinite
  | .finite _ => .isTrue trivial
  | .posInf => .isFalse id
  | .negInf => .isFalse id
  | .nan => .isFalse id

/-- The value of a finite float. -/
def value : PyFloat → ℚ
  | .finite q => q
  | _ => 0

theorem IsFinite.eq {x : PyFloat} (h : x.IsFinite) : x = .finite x.value := by
  cases x with
  | finite q => rfl
  | _ => exact h.elim

theorem lt_finite {x y : PyFloat} (hx : x.IsFinite) (hy : y.IsFinite) :
    x.lt y = decide (x.value < y.value) := by
  rw [hx.eq, hy.eq]
  rfl

theorem lt_posInf {x : PyFloat} (hx : x.IsFinite) : x.lt .posInf = true := by
  rw [hx.eq]
  rfl

/-- The floats below `inf`, in order: `-inf` is the least of them. -/
def rank : PyFloat → WithBot ℚ
  | .finite q => q
  | _ => ⊥

theorem lt_posInf_iff {x : PyFloat} : x.lt .posInf = true ↔ x ≠ .posInf ∧ x ≠ .nan := by
  cases x <;> simp [lt]

/-- What is below anything is below `inf`. -/
theorem lt_posInf_of_lt {x y : PyFloat} (h : x.lt y = true) : x.lt .posInf = true := by
  cases x <;> cases y <;> simp_all [lt]

theorem lt_eq_rank {x y : PyFloat} (hx : x.lt .posInf = true) (hy : y.lt .posInf = true) :
    x.lt y = decide (x.rank < y.rank) := by
  cases x <;> cases y <;> simp_all [lt, rank]

end PyFloat

/-! ## The running minimum -/

structure RunningMin (β : Type) where
  min : PyFloat
  best : Option β

section

variable {α β : Type} (p : α → Bool) (key : α → PyFloat) (out : α → β)

/-- One round of the loop. -/
def RunningMin.step (s : RunningMin β) (a : α) : RunningMin β :=
  if p a && (key a).lt s.min then ⟨key a, some (out a)⟩ else s

def runningMin (l : List α) : RunningMin β :=
  l.foldl (RunningMin.step p key out) ⟨.posInf, none⟩

/-- The loop sees the elements that satisfy `p` only. -/
theorem runningMin_filter (l : List α) :
    runningMin p key out (l.filter p) = runningMin p key out l := by
  unfold runningMin
  rw [List.foldl_filter]
  congr 1
  funext s a
  unfold RunningMin.step
  cases p a <;> simp

/-- **The loop invariant**: after any part of the list the state is the earliest minimum seen, and
its key; before the first candidate it is the sentinel. The order may be any that `<` tells. -/
theorem runningMin_eq_argmin {δ : Type} [LinearOrder δ] (rank : PyFloat → δ) {l : List α}
    (hp : ∀ a ∈ l, p a = true) (hinf : ∀ a ∈ l, (key a).lt .posInf = true)
    (hlt : ∀ a ∈ l, ∀ b ∈ l, (key a).lt (key b) = decide (rank (key a) < rank (key b))) :
    runningMin p key out l =
      match l.argmin (fun a => rank (key a)) with
      | none => ⟨.posInf, none⟩
      | some a => ⟨key a, some (out a)⟩ := by
  induction l using List.reverseRecOn with
  | nil => rfl
  | append_singleton l a ih =>
      have ih' := ih (fun b hb => hp b (by simp [hb])) (fun b hb => hinf b (by simp [hb]))
        (fun b hb c hc => hlt b (by simp [hb]) c (by simp [hc]))
      have hpa : p a = true := hp a (by simp)
      have ha : (key a).lt .posInf = true := hinf a (by simp)
      have hstep : runningMin p key out (l ++ [a]) =
          RunningMin.step p key out (runningMin p key out l) a := by
        simp [runningMin]
      rw [hstep, ih', List.argmin_concat]
      cases hmin : l.argmin (fun a => rank (key a)) with
      | none => simp [RunningMin.step, hpa, ha]
      | some b =>
          have hb : b ∈ l := List.argmin_mem hmin
          have hab := hlt a (by simp) b (by simp [hb])
          by_cases hless : rank (key a) < rank (key b)
          · simp [RunningMin.step, hpa, hab, hless]
          · simp [RunningMin.step, hpa, hab, hless]

theorem runningMin_eq {l : List α} (hp : ∀ a ∈ l, p a = true) (hfin : ∀ a ∈ l, (key a).IsFinite) :
    runningMin p key out l =
      match l.argmin (fun a => (key a).value) with
      | none => ⟨.posInf, none⟩
      | some a => ⟨key a, some (out a)⟩ :=
  runningMin_eq_argmin p key out PyFloat.value hp (fun a ha => PyFloat.lt_posInf (hfin a ha))
    fun a ha b hb => PyFloat.lt_finite (hfin a ha) (hfin b hb)

/-- The loop returns the earliest minimum among the elements that satisfy `p`. -/
theorem runningMin_best {l : List α} (hfin : ∀ a ∈ l, (key a).IsFinite) :
    (runningMin p key out l).best =
      ((l.filter p).argmin (fun a => (key a).value)).map out := by
  rw [← runningMin_filter, runningMin_eq p key out (fun a ha => (List.mem_filter.mp ha).2)
    (fun a ha => hfin a (List.mem_filter.mp ha).1)]
  cases (l.filter p).argmin (fun a => (key a).value) <;> rfl

/-- The loop passes over the keys that are not below the sentinel. -/
theorem runningMin_below (l : List α) :
    runningMin (fun a => p a && (key a).lt .posInf) key out l = runningMin p key out l := by
  unfold runningMin
  congr 1
  funext s a
  unfold RunningMin.step
  cases hlt : (key a).lt s.min with
  | false => simp
  | true => simp [PyFloat.lt_posInf_of_lt hlt]

/-- Whatever the keys are, the loop returns the earliest minimum among the elements that satisfy `p`
and have a key below `inf`. -/
theorem runningMin_best_any (l : List α) :
    (runningMin p key out l).best =
      ((l.filter fun a => p a && (key a).lt .posInf).argmin (fun a => (key a).rank)).map out := by
  have hmem : ∀ a ∈ l.filter fun a => p a && (key a).lt .posInf,
      (p a && (key a).lt .posInf) = true := fun a ha => (List.mem_filter.mp ha).2
  have hbelow : ∀ a ∈ l.filter fun a => p a && (key a).lt .posInf, (key a).lt .posInf = true :=
    fun a ha => (Bool.and_eq_true _ _ ▸ hmem a ha).2
  rw [← runningMin_below, ← runningMin_filter,
    runningMin_eq_argmin _ key out PyFloat.rank hmem hbelow
      fun a ha b hb => PyFloat.lt_eq_rank (hbelow a ha) (hbelow b hb)]
  cases (l.filter fun a => p a && (key a).lt .posInf).argmin (fun a => (key a).rank) <;> rfl

end

/-- The earliest minimum of a list: everything before it is larger, nothing after it is smaller. -/
theorem argmin_eq_some_iff_append {α δ : Type} [LinearOrder δ] {f : α → δ} {l : List α} {a : α} :
    l.argmin f = some a ↔
      ∃ pre post, l = pre ++ a :: post ∧ (∀ x ∈ pre, f a < f x) ∧ ∀ x ∈ post, f a ≤ f x := by
  induction l generalizing a with
  | nil => simp
  | cons b l ih =>
      rw [List.argmin_cons]
      cases hmin : l.argmin f with
      | none =>
          rw [List.argmin_eq_none.mp hmin]
          constructor
          · rintro ⟨rfl⟩
            exact ⟨[], [], rfl, by simp, by simp⟩
          · rintro ⟨pre, post, heq, -, -⟩
            cases pre with
            | nil => simp_all
            | cons c pre => simp at heq
      | some m =>
          dsimp only
          have hle : ∀ x ∈ l, f m ≤ f x := fun x hx => List.le_of_mem_argmin hx hmin
          have hml : m ∈ l := List.argmin_mem hmin
          split
          · next hlt =>
              -- `m` beats the new head, so it stays the earliest minimum
              constructor
              · rintro ⟨rfl⟩
                obtain ⟨pre, post, rfl, hpre, hpost⟩ := ih.mp hmin
                refine ⟨b :: pre, post, rfl, ?_, hpost⟩
                intro x hx
                rcases List.mem_cons.mp hx with rfl | hx
                · exact hlt
                · exact hpre x hx
              · rintro ⟨pre, post, heq, hpre, hpost⟩
                cases pre with
                | nil =>
                    cases heq
                    exact absurd hlt (not_lt.mpr (hpost m hml))
                | cons c pre =>
                    cases heq
                    rw [← hmin]
                    exact ih.mpr ⟨pre, post, rfl, fun x hx => hpre x (by simp [hx]), hpost⟩
          · next hnlt =>
              have hbm : f b ≤ f m := not_lt.mp hnlt
              constructor
              · rintro ⟨rfl⟩
                exact ⟨[], l, rfl, by simp, fun x hx => hbm.trans (hle x hx)⟩
              · rintro ⟨pre, post, heq, hpre, hpost⟩
                cases pre with
                | nil => cases heq; rfl
                | cons c pre =>
                    cases heq
                    have hab : f a < f b := hpre b (by simp)
                    have hma : f m ≤ f a := hle a (by simp)
                    exact absurd (hab.trans_le hbm) (not_lt.mpr hma)

/-- The earliest minimum among the elements that satisfy `q`, seen in the whole list. -/
theorem append_of_argmin_filter {α δ : Type} [LinearOrder δ] {f : α → δ} {q : α → Bool} {l : List α}
    {a : α} (h : (l.filter q).argmin f = some a) :
    q a = true ∧ ∃ pre post, l = pre ++ a :: post ∧ (∀ x ∈ pre, q x = true → f a < f x) ∧
      ∀ x ∈ post, q x = true → f a ≤ f x := by
  obtain ⟨pre', post', heq, hpre, hpost⟩ := argmin_eq_some_iff_append.mp h
  rw [List.filter_eq_append_iff] at heq
  obtain ⟨l₁, l₂, rfl, rfl, h₂⟩ := heq
  rw [List.filter_eq_cons_iff] at h₂
  obtain ⟨m₁, m₂, rfl, hm₁, ha, rfl⟩ := h₂
  refine ⟨ha, l₁ ++ m₁, m₂, by simp, ?_, ?_⟩
  · intro x hx hq
    rcases List.mem_append.mp hx with hx | hx
    · exact hpre x (List.mem_filter.mpr ⟨hx, hq⟩)
    · exact absurd hq (hm₁ x hx)
  · intro x hx hq
    exact hpost x (List.mem_filter.mpr ⟨hx, hq⟩)

end CryptoScan.Python
