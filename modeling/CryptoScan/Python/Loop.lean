import CryptoScan.Python.Text

/-!
# Loops that may raise

A `for` loop over a list, as a function on the state. An exception ends the loop, and what was done
before it stays done: the result is a state *and* how the loop ended.

A step that only appends to an output, the same whatever the output so far, **writes**. A loop of
such steps is known from its rounds, each run by itself: `reached` are the ones that are started,
`firstError` is how the loop ends. `forList_of_writes` is the rule to use, and the loop writes in
turn (`Writes.forList`), so the rule applies again one level up.

Loops compose as their lists do (`forList_append`, `forList_flatMap`). A loop that first fetches
something for its element, and may raise in doing so, is the plain loop over what was fetched
(`forList_fetchThen`): `fetched` is that list, cut off before the first exception.
-/

namespace CryptoScan.Python

variable {α β ε σ τ ω : Type}

/-- Sequence two effects that keep their state when they raise. -/
def andThen (r : σ × Except ε α) (f : α → σ → σ × Except ε β) : σ × Except ε β :=
  match r with
  | (s, .ok a) => f a s
  | (s, .error e) => (s, .error e)

/-- `for x in xs: body(x)`. -/
def forList (body : ω → σ → σ × Except ε Unit) : List ω → σ → σ × Except ε Unit
  | [], s => (s, .ok ())
  | x :: xs, s => andThen (body x s) fun _ s' => forList body xs s'

/-! ## Loops and lists -/

section Lists

variable {body : ω → σ → σ × Except ε Unit}

@[simp] theorem andThen_ok (s : σ) (a : α) (f : α → σ → σ × Except ε β) :
    andThen (s, .ok a) f = f a s := rfl

@[simp] theorem andThen_error (s : σ) (e : ε) (f : α → σ → σ × Except ε β) :
    andThen (s, .error e) f = (s, .error e) := rfl

/-- Nothing done afterwards changes nothing. -/
theorem andThen_return (r : σ × Except ε Unit) : andThen r (fun _ s => (s, .ok ())) = r := by
  rcases r with ⟨s, _ | _⟩ <;> rfl

theorem andThen_assoc {γ : Type} (r : σ × Except ε α) (f : α → σ → σ × Except ε β)
    (g : β → σ → σ × Except ε γ) :
    andThen (andThen r f) g = andThen r fun a s => andThen (f a s) g := by
  rcases r with ⟨s, _ | _⟩ <;> rfl

theorem forList_cons (body : ω → σ → σ × Except ε Unit) (x : ω) (xs : List ω) (s : σ) :
    forList body (x :: xs) s = andThen (body x s) fun _ s' => forList body xs s' := rfl

theorem forList_congr {body' : ω → σ → σ × Except ε Unit} {xs : List ω}
    (h : ∀ x ∈ xs, ∀ s, body x s = body' x s) (s : σ) : forList body xs s = forList body' xs s := by
  induction xs generalizing s with
  | nil => rfl
  | cons x xs ih =>
      have hrest : forList body xs = forList body' xs :=
        funext (ih fun y hy => h y (List.mem_cons_of_mem x hy))
      rw [forList_cons, forList_cons, h x List.mem_cons_self, hrest]

/-- One list after the other. -/
theorem forList_append (body : ω → σ → σ × Except ε Unit) (xs ys : List ω) (s : σ) :
    forList body (xs ++ ys) s = andThen (forList body xs s) fun _ s' => forList body ys s' := by
  induction xs generalizing s with
  | nil => rfl
  | cons x xs ih =>
      simp only [List.cons_append, forList_cons, andThen_assoc, ih]

theorem forList_map (body : ω → σ → σ × Except ε Unit) (f : τ → ω) (xs : List τ) (s : σ) :
    forList body (xs.map f) s = forList (fun x => body (f x)) xs s := by
  induction xs generalizing s with
  | nil => rfl
  | cons x xs ih =>
      simp only [List.map_cons, forList_cons, ih]

/-- A loop over a `flatMap` is a loop of loops. -/
theorem forList_flatMap (body : ω → σ → σ × Except ε Unit) (f : τ → List ω) (xs : List τ) (s : σ) :
    forList body (xs.flatMap f) s = forList (fun x => forList body (f x)) xs s := by
  induction xs generalizing s with
  | nil => rfl
  | cons x xs ih =>
      simp only [List.flatMap_cons, forList_append, forList_cons, ih]

/-- A body that does nothing. -/
theorem forList_skip (xs : List ω) (s : σ) :
    forList (fun _ s => (s, (.ok () : Except ε Unit))) xs s = (s, .ok ()) := by
  induction xs with
  | nil => rfl
  | cons x xs ih => exact ih

/-- The rounds that end normally, up to the first that raises. -/
def completed (body : ω → σ → σ × Except ε Unit) : List ω → σ → List ω
  | [], _ => []
  | x :: xs, s =>
      match body x s with
      | (s', .ok _) => x :: completed body xs s'
      | (_, .error _) => []

/-- The rounds that are started: those, and the one that raises. -/
def started (body : ω → σ → σ × Except ε Unit) : List ω → σ → List ω
  | [], _ => []
  | x :: xs, s =>
      match body x s with
      | (s', .ok _) => x :: started body xs s'
      | (_, .error _) => [x]

theorem completed_of_ok {xs : List ω} {s : σ} (h : (forList body xs s).2 = .ok ()) :
    completed body xs s = xs := by
  induction xs generalizing s with
  | nil => rfl
  | cons x xs ih =>
      rw [forList_cons] at h
      unfold completed
      rcases hx : body x s with ⟨s', e | u⟩
      · rw [hx] at h
        cases h
      · rw [hx] at h
        exact congrArg (x :: ·) (ih h)

end Lists

/-- The rounds that are started: all up to the first that raises. -/
def reached (ends : ω → Except ε Unit) : List ω → List ω
  | [] => []
  | x :: xs =>
      match ends x with
      | .ok _ => x :: reached ends xs
      | .error _ => [x]

/-- How the loop ends. -/
def firstError (ends : ω → Except ε Unit) : List ω → Except ε Unit
  | [] => .ok ()
  | x :: xs =>
      match ends x with
      | .ok _ => firstError ends xs
      | .error e => .error e

/-- The step appends to its output, the same whatever is there already. -/
def Writes (step : List τ → List τ × Except ε α) : Prop :=
  ∀ s, step s = (s ++ (step []).1, (step []).2)

section Writes

variable {body : ω → List τ → List τ × Except ε Unit} {ends : ω → Except ε Unit} {xs : List ω}

/-- **The rule for a loop whose body writes.** -/
theorem forList_of_writes (h : ∀ x ∈ xs, Writes (body x)) (s : List τ) :
    forList body xs s =
      (s ++ (reached (fun x => (body x []).2) xs).flatMap fun x => (body x []).1,
        firstError (fun x => (body x []).2) xs) := by
  induction xs generalizing s with
  | nil => simp [forList, reached, firstError]
  | cons x xs ih =>
      unfold forList reached firstError
      rw [h x List.mem_cons_self s]
      cases hx : (body x []).2 with
      | ok u =>
          show forList body xs (s ++ (body x []).1) = _
          rw [ih fun y hy => h y (List.mem_cons_of_mem x hy)]
          simp
      | error e =>
          -- the rest of the list is not looked at
          simp [andThen]

theorem Writes.forList (h : ∀ x ∈ xs, Writes (body x)) : Writes (forList body xs) := by
  intro s
  rw [forList_of_writes h s, forList_of_writes h []]
  rfl

theorem reached_subset (ends : ω → Except ε Unit) (xs : List ω) : reached ends xs ⊆ xs := by
  induction xs with
  | nil => exact fun _ h => h
  | cons x xs ih =>
      unfold reached
      split
      · exact List.cons_subset_cons x ih
      · simp

theorem firstError_eq_ok_iff : firstError ends xs = .ok () ↔ ∀ x ∈ xs, ends x = .ok () := by
  induction xs with
  | nil => simp [firstError]
  | cons x xs ih =>
      unfold firstError
      cases hx : ends x with
      | ok u => simp [ih, hx]
      | error e => simp [hx]

/-- A loop whose rounds can raise only one exception. -/
theorem firstError_cases {e : ε} (h : ∀ x ∈ xs, ends x = .ok () ∨ ends x = .error e) :
    firstError ends xs = .ok () ∨ firstError ends xs = .error e := by
  induction xs with
  | nil => exact .inl rfl
  | cons x xs ih =>
      unfold firstError
      rcases h x List.mem_cons_self with hx | hx
      · rw [hx]
        exact ih fun y hy => h y (List.mem_cons_of_mem x hy)
      · rw [hx]
        exact .inr rfl

/-- If no other exception comes before, the rounds that follow do not matter. -/
theorem firstError_append_of_error {e : ε} {x : ω} (h : ∀ y ∈ xs, ends y = .ok () ∨ ends y = .error e)
    (hx : x ∈ xs) (hbad : ends x ≠ .ok ()) (ys : List ω) :
    firstError ends (xs ++ ys) = .error e := by
  induction xs with
  | nil => cases hx
  | cons y xs ih =>
      rw [List.cons_append]
      unfold firstError
      rcases h y List.mem_cons_self with hy | hy
      · rw [hy]
        have hmem : x ∈ xs := (List.mem_cons.mp hx).resolve_left fun heq => hbad (heq ▸ hy)
        exact ih (fun z hz => h z (List.mem_cons_of_mem y hz)) hmem
      · rw [hy]

/-- Without an exception every round is started. -/
theorem reached_of_ok (h : ∀ x ∈ xs, ends x = .ok ()) : reached ends xs = xs := by
  induction xs with
  | nil => rfl
  | cons x xs ih =>
      unfold reached
      rw [h x List.mem_cons_self, ih fun y hy => h y (List.mem_cons_of_mem x hy)]

theorem forList_of_ok (h : ∀ x ∈ xs, Writes (body x)) (hok : ∀ x ∈ xs, (body x []).2 = .ok ())
    (s : List τ) : forList body xs s = (s ++ xs.flatMap fun x => (body x []).1, .ok ()) := by
  rw [forList_of_writes h, reached_of_ok hok, firstError_eq_ok_iff.mpr hok]

/-- The first exception ends the loop: nothing after its round is started. -/
theorem reached_of_error {x : ω} {e : ε} (ys : List ω) (h : ∀ y ∈ xs, ends y = .ok ())
    (hx : ends x = .error e) :
    reached ends (xs ++ x :: ys) = xs ++ [x] ∧ firstError ends (xs ++ x :: ys) = .error e := by
  induction xs with
  | nil => simp [reached, firstError, hx]
  | cons y xs ih =>
      obtain ⟨hr, hf⟩ := ih fun z hz => h z (List.mem_cons_of_mem y hz)
      simp only [List.cons_append, reached, firstError, h y List.mem_cons_self, hr, hf]
      exact ⟨trivial, trivial⟩

end Writes

/-! ## Fetching first -/

section Fetch

variable {fetch : ω → Except ε β} {xs : List ω}

/-- `y = fetch(x); body(y)`. -/
def fetchThen (fetch : ω → Except ε β) (body : β → σ → σ × Except ε Unit) (x : ω) (s : σ) :
    σ × Except ε Unit :=
  match fetch x with
  | .ok y => body y s
  | .error e => (s, .error e)

/-- What is fetched before the first exception. -/
def fetched (fetch : ω → Except ε β) : List ω → List β
  | [] => []
  | x :: xs =>
      match fetch x with
      | .ok y => y :: fetched fetch xs
      | .error _ => []

/-- How fetching for one element ends. -/
def fetchEnds (fetch : ω → Except ε β) (x : ω) : Except ε Unit := (fetch x).map fun _ => ()

/-- **Fetch first, then loop**: the loop body sees what is fetched, then the exception, if any. -/
theorem forList_fetchThen (fetch : ω → Except ε β) (body : β → σ → σ × Except ε Unit) (xs : List ω)
    (s : σ) :
    forList (fetchThen fetch body) xs s =
      andThen (forList body (fetched fetch xs) s) fun _ s' =>
        (s', firstError (fetchEnds fetch) xs) := by
  induction xs generalizing s with
  | nil => rfl
  | cons x xs ih =>
      rw [forList_cons, funext ih]
      cases hx : fetch x with
      | error e =>
          simp only [fetchThen, fetched, firstError, fetchEnds, hx]
          rfl
      | ok y =>
          simp only [fetchThen, fetched, firstError, fetchEnds, hx, forList_cons, andThen_assoc]
          rfl

/-- **Where fetching stops**: everything before that point was fetched, and the exception is that of
the element there, if there is one. `f` names what is fetched. -/
theorem fetched_spec {f : ω → β} (hf : ∀ x y, fetch x = .ok y → y = f x) (xs : List ω) :
    ∃ done rest, xs = done ++ rest ∧ (∀ x ∈ done, fetch x = .ok (f x)) ∧
      fetched fetch xs = done.map f ∧
      match rest with
      | [] => firstError (fetchEnds fetch) xs = .ok ()
      | x :: _ => ∃ e, fetch x = .error e ∧ firstError (fetchEnds fetch) xs = .error e := by
  induction xs with
  | nil => exact ⟨[], [], rfl, by simp, rfl, rfl⟩
  | cons x xs ih =>
      unfold fetched firstError fetchEnds
      cases hx : fetch x with
      | error e => exact ⟨[], x :: xs, rfl, by simp, rfl, e, hx, rfl⟩
      | ok y =>
          obtain ⟨done, rest, rfl, hdone, hmap, hrest⟩ := ih
          obtain rfl := hf x y hx
          refine ⟨x :: done, rest, rfl, ?_, congrArg (f x :: ·) hmap, hrest⟩
          intro z hz
          rcases List.mem_cons.mp hz with rfl | hz
          · exact hx
          · exact hdone z hz

/-- Without an exception everything is fetched. -/
theorem fetched_of_ok {f : ω → β} (h : ∀ x ∈ xs, fetch x = .ok (f x)) :
    fetched fetch xs = xs.map f ∧ firstError (fetchEnds fetch) xs = .ok () := by
  induction xs with
  | nil => exact ⟨rfl, rfl⟩
  | cons x xs ih =>
      obtain ⟨hmap, hends⟩ := ih fun y hy => h y (List.mem_cons_of_mem x hy)
      simp only [fetched, firstError, fetchEnds, h x List.mem_cons_self]
      exact ⟨congrArg (f x :: ·) hmap, hends⟩

theorem exists_of_mem_fetched {y : β} (h : y ∈ fetched fetch xs) : ∃ x ∈ xs, fetch x = .ok y := by
  induction xs with
  | nil => cases h
  | cons x xs ih =>
      unfold fetched at h
      cases hx : fetch x with
      | error e =>
          rw [hx] at h
          cases h
      | ok z =>
          rw [hx] at h
          rcases List.mem_cons.mp h with rfl | h
          · exact ⟨x, List.mem_cons_self, hx⟩
          · obtain ⟨x', hmem, hx'⟩ := ih h
            exact ⟨x', List.mem_cons_of_mem x hmem, hx'⟩

end Fetch

end CryptoScan.Python
