import CryptoScan.Scan.Program

/-!
# Services with a state

A `World` answers a call by a function of the file it is made for. Real services have a memory: a
collection changes, a model with a cache or a random seed need not answer the same prompt twice in
the same way. In an `Environment` each call to a service moves a state, and the answer may depend on
everything that was asked before. The loop body is the one of `Scan.lean`, in another monad.

* **Nothing is lost** (`stateful_scan`) — whatever the services do, there is a `World` that gives each
  file the answers they give when the scan gets to it (`StandsFor`), and in which the scan goes the
  same way, for every loop body. So what holds in every `World` holds for stateful services. The
  reason is that no file comes up twice, and that each service is asked at most once for a file.
* **The calls** (`stateful_calls`) — which calls are made, with which arguments, in which order: one
  query for a file that can be read, and then one prompt if the retrieved categories do not agree.
  Nothing is asked for the files after an exception.

Files are still read as they are: a file that changes during the scan is not modelled.
-/

namespace CryptoScan

open Python

/-- The program's surroundings. The services have a state. -/
structure Environment (σ : Type) where
  directory : Path → Option Dir
  read : Path → Except Exc Text
  /-- `collection.query(query_texts=[text], n_results=n)` -/
  query : (text : Text) → (n : Nat) → EStateM Exc σ QueryResult
  /-- `client.generate(model, prompt).get("response")` -/
  generate : (model prompt : Text) → EStateM Exc σ (Option Text)

variable {σ τ : Type}

namespace Environment

def calls (env : Environment σ) : Calls (EStateM Exc σ) where
  read path := MonadExcept.ofExcept (env.read path)
  query := env.query
  generate := env.generate

/-- One round of a loop over a scan. The loop's own body does not call the services. -/
def scanStep (env : Environment σ) (body : Path × Text → τ → τ × Except Exc Unit) (p : Path)
    (ts : τ × σ) : (τ × σ) × Except Exc Unit :=
  match (env.calls.categoryOfFile p).run ts.2 with
  | .error e s' => ((ts.1, s'), .error e)
  | .ok category s' =>
      let (t', r) := body (p, category) ts.1
      ((t', s'), r)

/-- A loop over `scan_folder(root)`: what its body has done, the state of the services, and how it
ends. -/
def scan (env : Environment σ) (root : Path) (body : Path × Text → τ → τ × Except Exc Unit) (t : τ)
    (s : σ) : (τ × σ) × Except Exc Unit :=
  forList (env.scanStep body) (filesBelow env.directory root) (t, s)

end Environment

/-! ## Answers and states -/

section Effects

variable {α β : Type}

/-- What a computation returns or raises. -/
def answer (x : EStateM Exc σ α) (s : σ) : Except Exc α :=
  match x.run s with
  | .ok a _ => .ok a
  | .error e _ => .error e

/-- The state that it leaves behind. -/
def after (x : EStateM Exc σ α) (s : σ) : σ :=
  match x.run s with
  | .ok _ s' => s'
  | .error _ s' => s'

@[simp] theorem answer_pure (a : α) (s : σ) : answer (pure a : EStateM Exc σ α) s = .ok a := rfl

@[simp] theorem answer_ofExcept (x : Except Exc α) (s : σ) :
    answer (MonadExcept.ofExcept x) s = x := by
  cases x <;> rfl

@[simp] theorem after_ofExcept (x : Except Exc α) (s : σ) :
    after (MonadExcept.ofExcept x) s = s := by
  cases x <;> rfl

/-- The answer of two computations in a row. -/
theorem answer_bind (x : EStateM Exc σ α) (f : α → EStateM Exc σ β) (s : σ) :
    answer (x >>= f) s = (answer x s >>= fun a => answer (f a) (after x s)) := by
  show (match EStateM.bind x f s with
    | .ok a _ => Except.ok a
    | .error e _ => .error e) = _
  unfold answer after EStateM.bind EStateM.run
  cases x s <;> rfl

theorem after_bind (x : EStateM Exc σ α) (f : α → EStateM Exc σ β) (s : σ) :
    after (x >>= f) s =
      match answer x s with
      | .ok a => after (f a) (after x s)
      | .error _ => after x s := by
  show (match EStateM.bind x f s with
    | .ok _ s' => s'
    | .error _ s' => s') = _
  unfold answer after EStateM.bind EStateM.run
  cases x s <;> rfl

/-- A round of the loop, in terms of the answer and the state of its calls. -/
theorem scanStep_eq (env : Environment σ) (body : Path × Text → τ → τ × Except Exc Unit) (p : Path)
    (t : τ) (s : σ) :
    env.scanStep body p (t, s) =
      match answer (env.calls.categoryOfFile p) s with
      | .error e => ((t, after (env.calls.categoryOfFile p) s), .error e)
      | .ok category =>
          (((body (p, category) t).1, after (env.calls.categoryOfFile p) s),
            (body (p, category) t).2) := by
  unfold Environment.scanStep answer after
  dsimp only
  cases (env.calls.categoryOfFile p).run s <;> rfl

end Effects

/-! ## A world for a run -/

section OneFile

variable {env : Environment σ} {w : World} {p : Path} {s : σ}

/-- The world answers the calls for this file as the services do from the state `s` on. -/
structure Simulates (env : Environment σ) (s : σ) (w : World) (p : Path) : Prop where
  read : w.read p = env.read p
  query : ∀ text n, w.query p text n = answer (env.query text n) s
  generate : ∀ model prompt, w.generate p model prompt =
    answer (env.generate model prompt) (after (env.calls.classifyFile p) s)

theorem Simulates.classifyFile_eq (h : Simulates env s w p) :
    classifyFile w p = answer (env.calls.classifyFile p) s := by
  rw [CryptoScan.classifyFile_eq]
  unfold Calls.classifyFile Environment.calls
  simp only [answer_bind, answer_ofExcept, after_ofExcept, h.read, h.query]

theorem Simulates.decideCategory_eq (h : Simulates env s w p) (categories : List Text) :
    decideCategory w p categories =
      answer (env.calls.decideCategory p categories) (after (env.calls.classifyFile p) s) := by
  cases hs : earlyStop categories with
  | some c =>
      rw [decideCategory_of_early hs]
      unfold Calls.decideCategory
      rw [hs]
      rfl
  | none =>
      rw [decideCategory_of_llm hs, askLlm_eq]
      unfold Calls.decideCategory
      rw [hs]
      unfold Calls.getTrueCategoryV2Codellama Calls.askLlm
      unfold Environment.calls
      simp only [answer_bind, answer_ofExcept, after_ofExcept, h.read, h.generate]
      rfl

/-- **One file**: the category is the same, or the exception. -/
theorem Simulates.categoryOfFile_eq (h : Simulates env s w p) :
    categoryOfFile w p = answer (env.calls.categoryOfFile p) s := by
  rw [CryptoScan.categoryOfFile_eq]
  unfold Calls.categoryOfFile
  simp only [answer_bind, answer_pure, h.classifyFile_eq, h.decideCategory_eq]

theorem Simulates.scanStep_eq (h : Simulates env s w p)
    (body : Path × Text → τ → τ × Except Exc Unit) (t : τ) :
    env.scanStep body p (t, s) =
      (((fetchThen (labelFile w) body p t).1, after (env.calls.categoryOfFile p) s),
        (fetchThen (labelFile w) body p t).2) := by
  rw [CryptoScan.scanStep_eq, ← h.categoryOfFile_eq]
  unfold fetchThen labelFile
  cases categoryOfFile w p <;> rfl

end OneFile

section Run

variable {env : Environment σ} {w : World} {root p q : Path} {files : List Path} {s : σ}

/-- In a run over these files, from these states on: when the run gets to a file, the world answers
its calls as the services do then. -/
def Follows (env : Environment σ) (w : World) (body : Path × Text → τ → τ × Except Exc Unit)
    (files : List Path) (t : τ) (s : σ) : Prop :=
  ∀ done p rest t' s', files = done ++ p :: rest →
    forList (env.scanStep body) done (t, s) = ((t', s'), .ok ()) → Simulates env s' w p

/-- The world stands for the services, from the state `s` on: it has the same files, and in every
loop over the scan it gives a file that the loop gets to the answers that the services give then. -/
structure StandsFor (env : Environment σ) (root : Path) (s : σ) (w : World) : Prop where
  directory : w.directory = env.directory
  read : w.read = env.read
  answers : ∀ {τ : Type} (body : Path × Text → τ → τ × Except Exc Unit) (t : τ),
    Follows env w body (filesBelow env.directory root) t s

theorem Follows.head {body : Path × Text → τ → τ × Except Exc Unit} {t : τ}
    (h : Follows env w body (p :: files) t s) : Simulates env s w p := h [] p files t s rfl rfl

theorem Follows.tail {body : Path × Text → τ → τ × Except Exc Unit} {t t' : τ} {s' : σ}
    (h : Follows env w body (p :: files) t s)
    (hstep : env.scanStep body p (t, s) = ((t', s'), .ok ())) : Follows env w body files t' s' := by
  intro done q rest t'' s'' hsplit hrun
  refine h (p :: done) q rest t'' s'' (congrArg (p :: ·) hsplit) ?_
  rw [forList_cons, hstep]
  exact hrun

/-- **The run**, with the services and in the world. -/
theorem Follows.run_eq {body : Path × Text → τ → τ × Except Exc Unit} {t : τ}
    (h : Follows env w body files t s) :
    forList (fetchThen (labelFile w) body) files t =
      ((forList (env.scanStep body) files (t, s)).1.1,
        (forList (env.scanStep body) files (t, s)).2) := by
  induction files generalizing t s with
  | nil => rfl
  | cons p ps ih =>
      have hstep := h.head.scanStep_eq body t
      rw [forList_cons, forList_cons]
      rcases hfetch : fetchThen (labelFile w) body p t with ⟨t', e | u⟩
      · rw [hfetch] at hstep
        rw [hstep]
        rfl
      · rw [hfetch] at hstep
        rw [hstep]
        exact ih (h.tail hstep)

/-- The answers that are given in a run over these files, told apart by the file they are for. -/
def Environment.world (env : Environment σ) : List Path → σ → World
  | [], _ =>
      { directory := env.directory
        read := env.read
        query := fun _ _ _ => .ok ⟨[], [], []⟩
        generate := fun _ _ _ => .ok none
        chat := fun _ _ _ => .ok ⟨none, none⟩ }
  | p :: ps, s =>
      let rest := env.world ps (after (env.calls.categoryOfFile p) s)
      { rest with
        query := fun q text n => if q = p then answer (env.query text n) s else rest.query q text n
        generate := fun q model prompt =>
          if q = p then answer (env.generate model prompt) (after (env.calls.classifyFile p) s)
          else rest.generate q model prompt }

theorem world_directory (env : Environment σ) (files : List Path) (s : σ) :
    (env.world files s).directory = env.directory := by
  induction files generalizing s with
  | nil => rfl
  | cons p ps ih => exact ih _

theorem world_read (env : Environment σ) (files : List Path) (s : σ) :
    (env.world files s).read = env.read := by
  induction files generalizing s with
  | nil => rfl
  | cons p ps ih => exact ih _

theorem simulates_head (env : Environment σ) (p : Path) (ps : List Path) (s : σ) :
    Simulates env s (env.world (p :: ps) s) p where
  read := by rw [world_read]
  query := fun _ _ => if_pos rfl
  generate := fun _ _ => if_pos rfl

/-- The other files do not see the first one. -/
theorem simulates_tail {s' : σ} (hq : q ≠ p)
    (h : Simulates env s' (env.world files (after (env.calls.categoryOfFile p) s)) q) :
    Simulates env s' (env.world (p :: files) s) q where
  read := by rw [world_read]
  query := fun text n => (if_neg hq).trans (h.query text n)
  generate := fun model prompt => (if_neg hq).trans (h.generate model prompt)

/-- Whatever the loop does, its round leaves the services in the state after the calls. -/
theorem state_of_scanStep {body : Path × Text → τ → τ × Except Exc Unit} {t t' : τ} {s' : σ}
    {r : Except Exc Unit} (h : env.scanStep body p (t, s) = ((t', s'), r)) :
    s' = after (env.calls.categoryOfFile p) s := by
  rw [scanStep_eq] at h
  split at h
  · cases h
    rfl
  · cases h
    rfl

/-- **Distinct files**: the world of the run follows it. -/
theorem follows_world (hfiles : files.Nodup) (body : Path × Text → τ → τ × Except Exc Unit) (t : τ) :
    Follows env (env.world files s) body files t s := by
  intro done
  -- the induction is on the files done; the world of the rest is that of the whole, one file less
  induction done generalizing files t s with
  | nil =>
      intro p rest t' s' hsplit hrun
      cases hrun
      rw [hsplit]
      exact simulates_head env p rest s
  | cons q done ih =>
      intro p rest t' s' hsplit hrun
      subst hsplit
      obtain ⟨hq, hrest⟩ := List.nodup_cons.mp hfiles
      have hne : p ≠ q := by
        rintro rfl
        exact hq (List.mem_append_right done List.mem_cons_self)
      rw [forList_cons] at hrun
      rcases hstep : env.scanStep body q (t, s) with ⟨⟨t₁, s₁⟩, e | u⟩
      · rw [hstep] at hrun
        cases hrun
      · rw [hstep, andThen_ok] at hrun
        have hstate := state_of_scanStep hstep
        apply simulates_tail hne
        rw [← hstate]
        exact ih hrest t₁ p rest t' s' rfl hrun

theorem exists_standsFor (env : Environment σ) (root : Path) (s : σ) :
    ∃ w, StandsFor env root s w :=
  ⟨env.world (filesBelow env.directory root) s, world_directory env _ s, world_read env _ s,
    fun body t => follows_world (filesBelow_nodup env.directory root) body t⟩

/-- **Services with a state can be replaced by answers**: for whatever they do, from any state on,
there is a world that has the answers they give in the run, and in which every loop over the scan
goes the same way. -/
theorem stateful_scan (env : Environment σ) (root : Path) (s : σ) :
    ∃ w : World, StandsFor env root s w ∧
      ∀ {τ : Type} (c : Gen.Consumer (Path × Text) Exc τ) (t : τ),
        (scanFolder w root).forEach c t =
          ((env.scan root c.body t s).1.1, (env.scan root c.body t s).2) := by
  obtain ⟨w, hw⟩ := exists_standsFor env root s
  refine ⟨w, hw, fun c t => ?_⟩
  rw [forEach_scanFolder, hw.directory]
  exact (hw.answers c.body t).run_eq

end Run

/-! ## The calls -/

/-- A call to a service. -/
inductive ServiceCall where
  | query (text : Text) (n : Nat)
  | generate (model prompt : Text)

/-- Make the call and write it down. -/
def logCall {α : Type} (call : ServiceCall) (x : EStateM Exc σ α) :
    EStateM Exc (σ × List ServiceCall) α := fun s =>
  match x.run s.1 with
  | .ok a s' => .ok a (s', s.2 ++ [call])
  | .error e s' => .error e (s', s.2 ++ [call])

/-- The same services, with a log of the calls made to them. -/
def Environment.logged (env : Environment σ) : Environment (σ × List ServiceCall) where
  directory := env.directory
  read := env.read
  query text n := logCall (.query text n) (env.query text n)
  generate model prompt := logCall (.generate model prompt) (env.generate model prompt)

/-- The calls that are due for a file: none if it cannot be read; a query for the four nearest
samples of its text; and a prompt with the text and the retrieved categories, if these do not
agree. -/
def callsFor (w : World) (filePath : Path) : List ServiceCall :=
  match w.read filePath with
  | .error _ => []
  | .ok text =>
      .query text 4 ::
        match w.query filePath text 4 with
        | .error _ => []
        | .ok documents =>
            match documents.retrieved with
            | none => []
            | some categories =>
                if Agree categories then []
                else [.generate (txt "llama3.1") (promptV2 text categories)]

section Log

variable {α β : Type} {env : Environment σ} {w : World} {p : Path} {files : List Path} {s : σ}

/-- `x` does from the state `s` on what `y` does, and writes down these calls. -/
def Logs (x : EStateM Exc (σ × List ServiceCall) α) (y : EStateM Exc σ α) (s : σ)
    (calls : List ServiceCall) : Prop :=
  ∀ log, answer x (s, log) = answer y s ∧ after x (s, log) = (after y s, log ++ calls)

theorem logs_logCall (call : ServiceCall) (x : EStateM Exc σ α) (s : σ) :
    Logs (logCall call x) x s [call] := by
  intro log
  cases h : x s <;> simp [answer, after, logCall, EStateM.run, h]

theorem logs_ofExcept (x : Except Exc α) (s : σ) :
    Logs (MonadExcept.ofExcept x) (MonadExcept.ofExcept x) s [] := by
  intro log
  simp

/-- One computation after the other. -/
theorem Logs.bind_ok {x : EStateM Exc (σ × List ServiceCall) α} {y : EStateM Exc σ α}
    {f : α → EStateM Exc (σ × List ServiceCall) β} {g : α → EStateM Exc σ β} {a : α}
    {calls rest : List ServiceCall} (h : Logs x y s calls) (ha : answer y s = .ok a)
    (hf : Logs (f a) (g a) (after y s) rest) : Logs (x >>= f) (y >>= g) s (calls ++ rest) := by
  intro log
  obtain ⟨hanswer, hafter⟩ := h log
  obtain ⟨hanswer', hafter'⟩ := hf (log ++ calls)
  rw [answer_bind, answer_bind, after_bind, after_bind, hanswer, hafter, ha]
  exact ⟨hanswer', by rw [← List.append_assoc]; exact hafter'⟩

/-- Nothing more is asked after an exception. -/
theorem Logs.bind_error {x : EStateM Exc (σ × List ServiceCall) α} {y : EStateM Exc σ α}
    {f : α → EStateM Exc (σ × List ServiceCall) β} {g : α → EStateM Exc σ β} {e : Exc}
    {calls : List ServiceCall} (h : Logs x y s calls) (he : answer y s = .error e) :
    Logs (x >>= f) (y >>= g) s calls := by
  intro log
  obtain ⟨hanswer, hafter⟩ := h log
  rw [answer_bind, answer_bind, after_bind, after_bind, hanswer, hafter, he]
  exact ⟨rfl, rfl⟩

/-- No call is made in front. -/
theorem logs_ofExcept_bind {x : Except Exc α} {f : α → EStateM Exc (σ × List ServiceCall) β}
    {g : α → EStateM Exc σ β} {a : α} {calls : List ServiceCall} (hx : x = .ok a)
    (h : Logs (f a) (g a) s calls) :
    Logs (MonadExcept.ofExcept x >>= f) (MonadExcept.ofExcept x >>= g) s calls := by
  subst hx
  exact h

/-- No call is made behind. -/
theorem Logs.bind_ofExcept {x : EStateM Exc (σ × List ServiceCall) α} {y : EStateM Exc σ α}
    {calls : List ServiceCall} (h : Logs x y s calls) (f : α → Except Exc β) :
    Logs (x >>= fun a => MonadExcept.ofExcept (f a)) (y >>= fun a => MonadExcept.ofExcept (f a)) s
      calls := by
  cases hy : answer y s with
  | error e => exact h.bind_error hy
  | ok a =>
      rw [← List.append_nil calls]
      exact h.bind_ok hy (logs_ofExcept (f a) _)

theorem logs_classifyFile {text : Text} (hread : env.read p = .ok text) (s : σ) :
    Logs (env.logged.calls.classifyFile p) (env.calls.classifyFile p) s [.query text 4] := by
  have hquery : Logs (env.logged.calls.query text 4) (env.calls.query text 4) s [.query text 4] :=
    logs_logCall _ _ s
  exact logs_ofExcept_bind hread (hquery.bind_ofExcept QueryResult.response)

theorem logs_askLlm {text : Text} (hread : env.read p = .ok text) (categories : List Text) (s : σ) :
    Logs (env.logged.calls.askLlm p categories) (env.calls.askLlm p categories) s
      [.generate (txt "llama3.1") (promptV2 text categories)] := by
  have hgenerate : Logs (env.logged.calls.generate (txt "llama3.1") (promptV2 text categories))
      (env.calls.generate (txt "llama3.1") (promptV2 text categories)) s
      [.generate (txt "llama3.1") (promptV2 text categories)] := logs_logCall _ _ s
  exact logs_ofExcept_bind hread (hgenerate.bind_ofExcept replyText)

theorem logs_decideCategory {text : Text} (hread : env.read p = .ok text) (categories : List Text)
    (s : σ) :
    Logs (env.logged.calls.decideCategory p categories) (env.calls.decideCategory p categories) s
      (if Agree categories then []
        else [.generate (txt "llama3.1") (promptV2 text categories)]) := by
  unfold Calls.decideCategory
  cases hs : earlyStop categories with
  | some c =>
      have hagree : Agree categories := by
        by_contra hdis
        rw [earlyStop_eq_none_iff.mpr hdis] at hs
        cases hs
      rw [if_pos hagree]
      exact logs_ofExcept (.ok c) s
  | none =>
      rw [if_neg (earlyStop_eq_none_iff.mp hs)]
      exact (logs_askLlm hread categories s).bind_ofExcept parseAnswerV2

/-- **The calls for one file.** -/
theorem Simulates.logs_categoryOfFile (h : Simulates env s w p) :
    Logs (env.logged.calls.categoryOfFile p) (env.calls.categoryOfFile p) s (callsFor w p) := by
  have hanswer := h.classifyFile_eq
  rw [CryptoScan.classifyFile_eq, h.read] at hanswer
  unfold callsFor
  rw [h.read]
  cases hread : env.read p with
  | error e =>
      -- neither the query nor what follows it is made
      have herr : answer (env.calls.read p) s = .error e := (answer_ofExcept _ s).trans hread
      have hclassify : Logs (env.logged.calls.classifyFile p) (env.calls.classifyFile p) s [] :=
        (logs_ofExcept (env.read p) s).bind_error herr
      rw [hread] at hanswer
      exact hclassify.bind_error hanswer.symm
  | ok text =>
      have hclassify := logs_classifyFile hread s
      rw [hread, ok_bind] at hanswer
      dsimp only
      cases hquery : w.query p text 4 with
      | error e =>
          rw [hquery] at hanswer
          exact hclassify.bind_error hanswer.symm
      | ok documents =>
          rw [hquery, ok_bind] at hanswer
          dsimp only
          cases hretrieved : documents.retrieved with
          | none =>
              rw [response_of_not_retrieved hretrieved] at hanswer
              exact hclassify.bind_error hanswer.symm
          | some categories =>
              obtain ⟨m, hm, rfl⟩ := response_of_retrieved hretrieved
              rw [hm] at hanswer
              have hdecide := logs_decideCategory hread m.categoryNames
                (after (env.calls.classifyFile p) s)
              exact hclassify.bind_ok hanswer.symm
                (hdecide.bind_ofExcept fun c => .ok (renameEllipticCurves c))

theorem Simulates.scanStep_logged (h : Simulates env s w p)
    (body : Path × Text → τ → τ × Except Exc Unit) (t : τ) (log : List ServiceCall) :
    env.logged.scanStep body p (t, s, log) =
      (((env.scanStep body p (t, s)).1.1, (env.scanStep body p (t, s)).1.2, log ++ callsFor w p),
        (env.scanStep body p (t, s)).2) := by
  obtain ⟨hanswer, hafter⟩ := h.logs_categoryOfFile log
  rw [CryptoScan.scanStep_eq, CryptoScan.scanStep_eq, hanswer, hafter]
  cases answer (env.calls.categoryOfFile p) s <;> rfl

/-- **The calls of a run** are those for the files that it gets to. -/
theorem Follows.run_logged {body : Path × Text → τ → τ × Except Exc Unit} {t : τ}
    (h : Follows env w body files t s) (log : List ServiceCall) :
    forList (env.logged.scanStep body) files (t, s, log) =
      (((forList (env.scanStep body) files (t, s)).1.1,
          (forList (env.scanStep body) files (t, s)).1.2,
          log ++ (started (env.scanStep body) files (t, s)).flatMap (callsFor w)),
        (forList (env.scanStep body) files (t, s)).2) := by
  induction files generalizing t s log with
  | nil =>
      show ((t, s, log), Except.ok ()) = ((t, s, log ++ []), Except.ok ())
      rw [List.append_nil]
  | cons p ps ih =>
      rw [forList_cons, forList_cons, h.head.scanStep_logged body t log]
      unfold started
      rcases hstep : env.scanStep body p (t, s) with ⟨⟨t', s'⟩, e | u⟩
      · rw [List.flatMap_singleton]
        rfl
      · show forList (env.logged.scanStep body) ps (t', s', log ++ callsFor w p) = _
        rw [ih (h.tail hstep), List.flatMap_cons, List.append_assoc]
        rfl

/-- **Which calls a scan makes.** In a world that stands for the services the log of any loop over
the scan consists of the calls that are due for the files, in their order, up to the file where the
loop ends: one query for a file that can be read, and one prompt where the retrieved categories do
not agree. The services are in the state that they would be in without the log. -/
theorem stateful_calls (env : Environment σ) (root : Path) (s : σ) :
    ∃ w : World, StandsFor env root s w ∧
      ∀ {τ : Type} (c : Gen.Consumer (Path × Text) Exc τ) (t : τ),
        env.logged.scan root c.body t (s, []) =
          (((env.scan root c.body t s).1.1, (env.scan root c.body t s).1.2,
              (started (env.scanStep c.body) (filesBelow env.directory root) (t, s)).flatMap
                (callsFor w)),
            (env.scan root c.body t s).2) := by
  obtain ⟨w, hw⟩ := exists_standsFor env root s
  exact ⟨w, hw, fun c t => (hw.answers c.body t).run_logged []⟩

end Log

end CryptoScan
