import CryptoScan.Python.Loop

/-!
# Generator objects

Calling a Python generator function runs nothing: it makes an *object* that holds the call. The
body starts at the first `next` and runs to its next `yield`; a `for` loop is what calls `next`
until the body ends or raises. A call whose object nobody iterates has no effect at all.

* `Gen ω κ ε α` — the body of a generator function as a program: it may `yield` a value of `ω`,
  make a generator object by a call `κ`, print a line, raise `ε`, or return. It is a monad, so
  bodies are written with `do`, in the order of the source.
* The **machine**: a heap of objects, `next` on one of them, and `forLoop`, which drives one object
  and runs the loop body between two `next`s.
* The **meaning**: `Gen.forEach` runs the loop over the body directly and ignores calls.

`forLoop_eq_forEach` connects the two: with enough fuel the machine computes the meaning, leaves
every other object as it was, and each call of the body (`Gen.calls`) has left an object that is
still `fresh` — none of them was ever started. Clients reason with `forEach` (a monad morphism,
`forEach_bind`) and `outputs`.
-/

namespace CryptoScan.Python

inductive Gen (ω κ ε α : Type) where
  | pure (a : α)
  | raise (e : ε)
  | emit (v : ω) (k : Gen ω κ ε α)
  | spawn (c : κ) (k : Gen ω κ ε α)
  | print (line : Text) (k : Gen ω κ ε α)

namespace Gen

variable {ω κ ε α β σ : Type}

def bind : Gen ω κ ε α → (α → Gen ω κ ε β) → Gen ω κ ε β
  | .pure a, f => f a
  | .raise e, _ => .raise e
  | .emit v k, f => .emit v (k.bind f)
  | .spawn c k, f => .spawn c (k.bind f)
  | .print l k, f => .print l (k.bind f)

instance : Monad (Gen ω κ ε) where
  pure := .pure
  bind := bind

/-- `yield v`. -/
def yield (v : ω) : Gen ω κ ε Unit := .emit v (.pure ())

/-- Evaluate a call to a generator function and drop the object. -/
def call (c : κ) : Gen ω κ ε Unit := .spawn c (.pure ())

/-- `print(line)`. -/
def say (line : Text) : Gen ω κ ε Unit := .print line (.pure ())

/-- Run code that may raise. -/
def ofExcept : Except ε α → Gen ω κ ε α
  | .ok a => .pure a
  | .error e => .raise e

/-- `for x in xs: body(x)`, inside a generator body. -/
def each : List β → (β → Gen ω κ ε Unit) → Gen ω κ ε Unit
  | [], _ => .pure ()
  | x :: xs, body => do
      body x
      each xs body

/-! ## Meaning: what a `for` loop over the generator does -/

/-- The other side of a `for` loop: how its state takes a printed line, and the loop body. An
exception keeps the state reached so far. -/
structure Consumer (ω ε σ : Type) where
  say : Text → σ → σ
  body : ω → σ → σ × Except ε Unit

/-- Run the loop over a generator body: calls make objects that nobody iterates. -/
def forEach (c : Consumer ω ε σ) : Gen ω κ ε α → σ → σ × Except ε α
  | .pure a, s => (s, .ok a)
  | .raise e, s => (s, .error e)
  | .emit v k, s =>
      match c.body v s with
      | (s', .ok _) => k.forEach c s'
      | (s', .error e) => (s', .error e)
  | .spawn _ k, s => k.forEach c s
  | .print l k, s => k.forEach c (c.say l s)

/-- **`forEach` is a monad morphism**: loop over the first part, then over the rest. -/
theorem forEach_bind (c : Consumer ω ε σ) (g : Gen ω κ ε α) (f : α → Gen ω κ ε β) (s : σ) :
    (g >>= f).forEach c s = andThen (g.forEach c s) fun a s' => (f a).forEach c s' := by
  show (g.bind f).forEach c s = _
  induction g generalizing s with
  | pure a => rfl
  | raise e => rfl
  | emit v k ih =>
      simp only [bind, forEach]
      rcases c.body v s with ⟨s', _ | _⟩
      · rfl
      · exact ih s'
  | spawn d k ih => exact ih s
  | print l k ih => exact ih _

@[simp] theorem forEach_yield (c : Consumer ω ε σ) (v : ω) (s : σ) :
    (yield v : Gen ω κ ε Unit).forEach c s = c.body v s := by
  simp only [yield, forEach]
  rcases c.body v s with ⟨s', _ | _⟩ <;> rfl

@[simp] theorem forEach_ofExcept (c : Consumer ω ε σ) (x : Except ε α) (s : σ) :
    (ofExcept x : Gen ω κ ε α).forEach c s = (s, x) := by
  cases x <;> rfl

@[simp] theorem forEach_say (c : Consumer ω ε σ) (l : Text) (s : σ) :
    (say l : Gen ω κ ε Unit).forEach c s = (c.say l s, .ok ()) := rfl

/-- A loop inside the body is a loop of the whole. -/
theorem forEach_each (c : Consumer ω ε σ) (xs : List β) (body : β → Gen ω κ ε Unit) (s : σ) :
    (each xs body).forEach c s = forList (fun x => (body x).forEach c) xs s := by
  induction xs generalizing s with
  | nil => rfl
  | cons x xs ih =>
      unfold each forList
      rw [forEach_bind]
      congr 1
      funext _ s'
      exact ih s'

/-! ## The values a generator yields -/

def outputs : Gen ω κ ε α → List ω
  | .pure _ => []
  | .raise _ => []
  | .emit v k => v :: k.outputs
  | .spawn _ k => k.outputs
  | .print _ k => k.outputs

/-- How the body ends. -/
def result : Gen ω κ ε α → Except ε α
  | .pure a => .ok a
  | .raise e => .error e
  | .emit _ k => k.result
  | .spawn _ k => k.result
  | .print _ k => k.result

/-- A consumer that does not look at what is printed sees the values, then how the body ends. -/
theorem forEach_eq_forList {c : Consumer ω ε σ} (hsay : ∀ l s, c.say l s = s) (g : Gen ω κ ε α)
    (s : σ) :
    g.forEach c s = andThen (forList c.body g.outputs s) fun _ s' => (s', g.result) := by
  induction g generalizing s with
  | pure a => rfl
  | raise e => rfl
  | emit v k ih =>
      simp only [forEach, outputs, forList, result]
      rcases c.body v s with ⟨s', _ | _⟩
      · rfl
      · exact ih s'
  | spawn d k ih => exact ih s
  | print l k ih =>
      simp only [forEach, hsay]
      exact ih s

/-- `list(generator)`: append every value, ignore what is printed. -/
def collector : Consumer ω ε (List ω) := ⟨fun _ s => s, fun v s => (s ++ [v], .ok ())⟩

theorem forEach_collector (g : Gen ω κ ε α) (s : List ω) :
    g.forEach collector s = (s ++ g.outputs, g.result) := by
  have hwrites : ∀ v ∈ g.outputs, Writes ((collector : Consumer ω ε _).body v) := fun _ _ _ => rfl
  rw [forEach_eq_forList fun _ _ => rfl, forList_of_ok hwrites fun _ _ => rfl]
  show (s ++ g.outputs.flatMap (fun v => [v]), g.result) = _
  rw [List.flatMap_singleton']

/-- A loop whose body writes, writes. -/
theorem forEach_writes {τ : Type} {c : Consumer ω ε (List τ)}
    (hsay : ∀ l s, c.say l s = s ++ c.say l []) (hbody : ∀ v, Writes (c.body v))
    (g : Gen ω κ ε α) : Writes (g.forEach c) := by
  intro s
  induction g generalizing s with
  | pure a => simp [forEach]
  | raise e => simp [forEach]
  | emit v k ih =>
      simp only [forEach, hbody v s]
      rcases hv : c.body v [] with ⟨t, _ | u⟩
      · rfl
      · show k.forEach c (s ++ t) = (s ++ (k.forEach c t).1, (k.forEach c t).2)
        rw [ih (s ++ t), ih t, List.append_assoc]
  | spawn d k ih => exact ih s
  | print l k ih =>
      simp only [forEach]
      rw [hsay l s, ih (s ++ c.say l []), ih (c.say l []), List.append_assoc]

/-! ## The calls it makes -/

/-- The calls a loop over the body makes, up to where it ends. -/
def calls (c : Consumer ω ε σ) : Gen ω κ ε α → σ → List κ
  | .pure _, _ => []
  | .raise _, _ => []
  | .emit v k, s =>
      match c.body v s with
      | (s', .ok _) => k.calls c s'
      | (_, .error _) => []
  | .spawn d k, s => d :: k.calls c s
  | .print l k, s => k.calls c (c.say l s)

/-- The calls of the first part; those of the rest, if it is reached. -/
theorem calls_bind (c : Consumer ω ε σ) (g : Gen ω κ ε α) (f : α → Gen ω κ ε β) (s : σ) :
    (g >>= f).calls c s = g.calls c s ++
      match g.forEach c s with
      | (s', .ok a) => (f a).calls c s'
      | (_, .error _) => [] := by
  show (g.bind f).calls c s = _
  induction g generalizing s with
  | pure a => rfl
  | raise e => rfl
  | emit v k ih =>
      simp only [bind, calls, forEach]
      rcases c.body v s with ⟨s', _ | _⟩
      · rfl
      · exact ih s'
  | spawn d k ih => exact congrArg (d :: ·) (ih s)
  | print l k ih => exact ih _

@[simp] theorem calls_ofExcept (c : Consumer ω ε σ) (x : Except ε α) (s : σ) :
    (ofExcept x : Gen ω κ ε α).calls c s = [] := by
  cases x <;> rfl

@[simp] theorem calls_yield (c : Consumer ω ε σ) (v : ω) (s : σ) :
    (yield v : Gen ω κ ε Unit).calls c s = [] := by
  simp only [yield, calls]
  rcases c.body v s with ⟨s', _ | _⟩ <;> rfl

/-- A loop whose rounds make the calls `out` at their end makes those of the completed rounds. -/
theorem calls_each {c : Consumer ω ε σ} {xs : List β} {body : β → Gen ω κ ε Unit} (out : β → List κ)
    (h : ∀ x s, (body x).calls c s =
      match ((body x).forEach c s).2 with
      | .ok _ => out x
      | .error _ => []) (s : σ) :
    (each xs body).calls c s = (completed (fun x => (body x).forEach c) xs s).flatMap out := by
  induction xs generalizing s with
  | nil => rfl
  | cons x xs ih =>
      unfold each completed
      rw [calls_bind, h]
      rcases (body x).forEach c s with ⟨s', e | u⟩
      · rfl
      · rw [List.flatMap_cons, ← ih s']

/-! ## The machine -/

/-- A generator object: not started, stopped at a `yield`, or finished. -/
inductive Obj (ω κ ε : Type) where
  | fresh (c : κ)
  | suspended (k : Gen ω κ ε Unit)
  | closed

inductive Outcome (ω κ ε : Type) where
  | stop
  | raised (e : ε)
  | yielded (v : ω) (k : Gen ω κ ε Unit)

/-- What one `next` did: how it ended, which calls made objects, what it printed. -/
structure Resumption (ω κ ε : Type) where
  outcome : Outcome ω κ ε
  created : List κ
  printed : List Text

/-- Run a body up to its next `yield`. -/
def resume : Gen ω κ ε Unit → Resumption ω κ ε
  | .pure _ => ⟨.stop, [], []⟩
  | .raise e => ⟨.raised e, [], []⟩
  | .emit v k => ⟨.yielded v k, [], []⟩
  | .spawn c k => { k.resume with created := c :: k.resume.created }
  | .print l k => { k.resume with printed := l :: k.resume.printed }

/-- The object's state after a `next`. -/
def Outcome.obj : Outcome ω κ ε → Obj ω κ ε
  | .yielded _ k => .suspended k
  | _ => .closed

/-- The body an object would run next; a finished one only ever stops. -/
def Obj.body (defs : κ → Gen ω κ ε Unit) : Obj ω κ ε → Gen ω κ ε Unit
  | .fresh c => defs c
  | .suspended k => k
  | .closed => .pure ()

/-- `next` on the object at address `i`: its new state, and the new objects behind the heap. -/
def next (defs : κ → Gen ω κ ε Unit) (heap : List (Obj ω κ ε)) (i : Nat) :
    Resumption ω κ ε × List (Obj ω κ ε) :=
  match heap[i]? with
  | none => (⟨.stop, [], []⟩, heap)
  | some o =>
      let r := (o.body defs).resume
      (r, heap.set i r.outcome.obj ++ r.created.map .fresh)

/-- `for v in heap[i]: body`. The fuel bounds the number of rounds; `none` says it ran out. -/
def forLoop (defs : κ → Gen ω κ ε Unit) (c : Consumer ω ε σ) :
    Nat → List (Obj ω κ ε) → Nat → σ → σ × Option (Except ε Unit) × List (Obj ω κ ε)
  | 0, heap, _, s => (s, none, heap)
  | n + 1, heap, i, s =>
      let (r, heap') := next defs heap i
      let s₁ := r.printed.foldl (fun s l => c.say l s) s
      match r.outcome with
      | .stop => (s₁, some (.ok ()), heap')
      | .raised e => (s₁, some (.error e), heap')
      | .yielded v _ =>
          match c.body v s₁ with
          | (s₂, .ok _) => forLoop defs c n heap' i s₂
          | (s₂, .error e) => (s₂, some (.error e), heap')

/-! ## The machine computes the meaning -/

/-- The rounds a loop over `g` can make. -/
def emits (g : Gen ω κ ε α) : Nat := g.outputs.length

theorem emits_resume {g k : Gen ω κ ε Unit} {v : ω} (h : g.resume.outcome = .yielded v k) :
    k.emits < g.emits := by
  induction g with
  | pure a => cases h
  | raise e => cases h
  | emit w k' ih =>
      cases h
      simp [emits, outputs]
  | spawn d k' ih => exact ih h
  | print l k' ih => exact ih h

/-- One `next` and the loop body, against the meaning. -/
theorem forEach_resume (c : Consumer ω ε σ) (g : Gen ω κ ε Unit) (s : σ) :
    g.forEach c s =
      let s₁ := g.resume.printed.foldl (fun s l => c.say l s) s
      match g.resume.outcome with
      | .stop => (s₁, .ok ())
      | .raised e => (s₁, .error e)
      | .yielded v k => andThen (c.body v s₁) fun _ s₂ => k.forEach c s₂ := by
  induction g generalizing s with
  | pure a => rfl
  | raise e => rfl
  | emit v k ih =>
      simp only [forEach, resume, List.foldl_nil]
      rcases c.body v s with ⟨s', _ | _⟩ <;> rfl
  | spawn d k ih => exact ih s
  | print l k ih => exact ih (c.say l s)

/-- One `next` and the loop body, and the calls made. -/
theorem calls_resume (c : Consumer ω ε σ) (g : Gen ω κ ε Unit) (s : σ) :
    g.calls c s = g.resume.created ++
      let s₁ := g.resume.printed.foldl (fun s l => c.say l s) s
      match g.resume.outcome with
      | .stop => []
      | .raised _ => []
      | .yielded v k =>
          match c.body v s₁ with
          | (s₂, .ok _) => k.calls c s₂
          | (_, .error _) => [] := by
  induction g generalizing s with
  | pure a => rfl
  | raise e => rfl
  | emit v k ih => rfl
  | spawn d k ih => exact congrArg (d :: ·) (ih s)
  | print l k ih => exact ih (c.say l s)

/-- **The machine computes the meaning.** Driving the object at `i` with enough fuel ends as
`forEach` over its body does. No other object has moved; each call made on the way has left an object
behind the heap, and it is still waiting to be started. -/
theorem forLoop_eq_forEach {defs : κ → Gen ω κ ε Unit} (c : Consumer ω ε σ) {n i : Nat}
    {heap : List (Obj ω κ ε)} {o : Obj ω κ ε} (hi : heap[i]? = some o)
    (hn : (o.body defs).emits < n) (s : σ) :
    ∃ o', forLoop defs c n heap i s =
        (((o.body defs).forEach c s).1, some ((o.body defs).forEach c s).2,
          heap.set i o' ++ ((o.body defs).calls c s).map .fresh) ∧
      (((o.body defs).forEach c s).2 = .ok () → o' = .closed) := by
  induction n generalizing heap o s with
  | zero => omega
  | succ n ih =>
      have hlt : i < heap.length := (List.getElem?_eq_some_iff.mp hi).1
      have hnext : next defs heap i = ((o.body defs).resume,
          heap.set i (o.body defs).resume.outcome.obj ++
            (o.body defs).resume.created.map .fresh) := by
        unfold next
        rw [hi]
      generalize hg : o.body defs = g at *
      unfold forLoop
      rw [forEach_resume c g s, calls_resume c g s, hnext]
      dsimp only
      cases hout : g.resume.outcome with
      | stop => exact ⟨.closed, by simp [Outcome.obj], fun _ => rfl⟩
      | raised e => exact ⟨.closed, by simp [Outcome.obj], fun _ => rfl⟩
      | yielded v k =>
          dsimp only
          rcases hbody : c.body v (g.resume.printed.foldl (fun s l => c.say l s) s) with ⟨s₂, e | u⟩
          · exact ⟨.suspended k, by simp [Outcome.obj], fun h => nomatch h⟩
          · -- the loop body went through: the object is suspended at `k`, one round fewer to go
            have hlt' : i < (heap.set i (.suspended k)).length := by rwa [List.length_set]
            have hk : (heap.set i (.suspended k) ++ g.resume.created.map Obj.fresh)[i]? =
                some (.suspended k) := by
              rw [List.getElem?_append_left hlt', List.getElem?_set_self hlt]
            have hfuel : k.emits < n := by
              have := emits_resume hout
              omega
            obtain ⟨o', hloop, hclosed⟩ := ih hk hfuel s₂
            refine ⟨o', ?_, hclosed⟩
            show forLoop defs c n (heap.set i (.suspended k) ++ _) i s₂ = _
            rw [hloop, List.set_append_left _ _ hlt', List.set_set, List.append_assoc,
              ← List.map_append]
            rfl

end Gen

end CryptoScan.Python
