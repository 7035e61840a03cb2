import Mathlib.Data.List.Find
import Mathlib.Data.List.Forall2
import Mathlib.Data.Set.Function
import CryptoScan.Python.Dict
import CryptoScan.Categorize

/-!
# `vecstore.py`: the sample collection

`python vecstore.py file category` puts one code sample into the collection that `categorize.py`
queries. A sample's id is the SHA-256 of its code, and `upsert` replaces what is stored under an id.
So the collection is meant to be a map from code to category, and adding a sample again changes its
category.

The collection is `chromadb`'s, so it is a parameter here (`Chroma`), and what the results need to
know of it are named laws (`Chroma.Lawful`): what is found under an id after an `upsert` that returns
and after one that raises, and that none returns without an embedding. It may raise for reasons of
its own, and in which order it keeps its items is not said.

What such a collection holds after any sequence of calls of the program, those that fail included, is
known exactly (`uploads_content`). If the hash has no collisions, it *is* a map from code to category
(`labelOf_uploads`).
-/

namespace CryptoScan

open Python

variable {ε : Type}

/-! ## Embeddings -/

/-- `client.embeddings(model, prompt).get("embedding", None)`. -/
abbrev EmbeddingCall (ε : Type) := (model prompt : Text) → Except Exc (Option ε)

/-- The loop body of `OllamaEmbedding.__call__`. -/
def appendEmbedding (embeddingsOf : EmbeddingCall ε) (embeddings : List ε) (doc : Text) :
    Except Exc (List ε) := do
  let embedding ← embeddingsOf (txt "nomic-embed-text") doc
  match embedding with
  | some e => .ok (embeddings ++ [e])
  | none => .error (.valueError (txt "Could not get embedding"))

/-- `OllamaEmbedding.__call__`. -/
def ollamaEmbedding (embeddingsOf : EmbeddingCall ε) (input : List Text) : Except Exc (List ε) :=
  input.foldlM (appendEmbedding embeddingsOf) []

/-- What one document adds, or the exception it raises. -/
def embedOne (embeddingsOf : EmbeddingCall ε) (doc : Text) : Except Exc ε := do
  match ← embeddingsOf (txt "nomic-embed-text") doc with
  | some e => pure e
  | none => throw (.valueError (txt "Could not get embedding"))

theorem appendEmbedding_eq (embeddingsOf : EmbeddingCall ε) (acc : List ε) (doc : Text) :
    appendEmbedding embeddingsOf acc doc =
      (embedOne embeddingsOf doc).map fun e => acc ++ [e] := by
  unfold appendEmbedding embedOne
  rcases embeddingsOf (txt "nomic-embed-text") doc with e | (_ | e) <;> rfl

/-- The accumulating loop is a `mapM`. -/
theorem ollamaEmbedding_eq_mapM (embeddingsOf : EmbeddingCall ε) (input : List Text) :
    ollamaEmbedding embeddingsOf input = input.mapM (embedOne embeddingsOf) := by
  have hrun : ∀ (input : List Text) (acc : List ε),
      input.foldlM (appendEmbedding embeddingsOf) acc =
        (input.mapM (embedOne embeddingsOf)).map (acc ++ ·) := by
    intro input
    induction input with
    | nil =>
        intro acc
        show Except.ok acc = Except.ok (acc ++ [])
        rw [List.append_nil]
    | cons doc docs ih =>
        intro acc
        rw [List.foldlM_cons, appendEmbedding_eq, List.mapM_cons]
        cases embedOne embeddingsOf doc with
        | error e => rfl
        | ok e =>
            show docs.foldlM (appendEmbedding embeddingsOf) (acc ++ [e]) = _
            rw [ih]
            cases docs.mapM (embedOne embeddingsOf) with
            | error e => rfl
            | ok es =>
                show Except.ok (acc ++ [e] ++ es) = Except.ok (acc ++ e :: es)
                rw [List.append_assoc, List.singleton_append]
  show input.foldlM (appendEmbedding embeddingsOf) [] = _
  rw [hrun]
  cases input.mapM (embedOne embeddingsOf) <;> rfl

/-- Either an exception, or one embedding for each document, in order. -/
theorem ollamaEmbedding_ok {embeddingsOf : EmbeddingCall ε} {input : List Text} {es : List ε}
    (h : ollamaEmbedding embeddingsOf input = .ok es) :
    List.Forall₂ (fun doc e => embedOne embeddingsOf doc = .ok e) input es := by
  rw [ollamaEmbedding_eq_mapM] at h
  induction input generalizing es with
  | nil =>
      cases h
      exact .nil
  | cons doc docs ih =>
      rw [List.mapM_cons] at h
      obtain ⟨e, he, h⟩ := exists_of_bind_eq_ok h
      obtain ⟨es', hes, h⟩ := exists_of_bind_eq_ok h
      cases h
      exact .cons he (ih hes)

theorem exists_embedding {embeddingsOf : EmbeddingCall ε} {doc : Text} {es : List ε}
    (h : ollamaEmbedding embeddingsOf [doc] = .ok es) :
    ∃ e, embeddingsOf (txt "nomic-embed-text") doc = .ok (some e) := by
  cases ollamaEmbedding_ok h with
  | cons hone _ =>
      unfold embedOne at hone
      obtain ⟨embedding, hcall, hone⟩ := exists_of_bind_eq_ok hone
      cases embedding with
      | none => cases hone
      | some e => exact ⟨e, hcall⟩

/-! ## The collection -/

/-- What is found under an id: metadata and document. -/
structure Sample where
  category : Text
  code : Text

/-- A `chromadb` collection as these programs see it; `κ` are its states. -/
structure Chroma (κ ε : Type) where
  /-- `get_or_create_collection(…)`, the first time -/
  create : κ
  /-- `collection.upsert(ids=[id], metadatas=[metadata], documents=[document])`, with the embedding
  function that the collection was made with -/
  upsert : (embed : List Text → Except Exc (List ε)) → (id : Text) → (metadata : Metadata) →
    (document : Text) → κ → κ × Except Exc Unit
  /-- what is found under an id -/
  lookup : κ → (id : Text) → Option Sample

/-- What is assumed of `chromadb`. -/
structure Chroma.Lawful {κ : Type} (chroma : Chroma κ ε) : Prop where
  /-- A new collection is empty. -/
  lookup_create : ∀ id, chroma.lookup chroma.create id = none
  /-- An `upsert` returns only if the embedding function has returned on the document. -/
  embed_returns : ∀ embed id metadata document c,
    (chroma.upsert embed id metadata document c).2 = .ok () → ∃ vs, embed [document] = .ok vs
  /-- One that raises has stored nothing. -/
  lookup_of_raises : ∀ embed id metadata document c e,
    (chroma.upsert embed id metadata document c).2 = .error e →
    ∀ j, chroma.lookup (chroma.upsert embed id metadata document c).1 j = chroma.lookup c j
  /-- One that returns has stored the item, -/
  lookup_self : ∀ embed id metadata document c,
    (chroma.upsert embed id metadata document c).2 = .ok () →
    chroma.lookup (chroma.upsert embed id metadata document c).1 id =
      some ⟨metadata.category, document⟩
  /-- and has changed nothing else. -/
  lookup_other : ∀ embed id metadata document c,
    (chroma.upsert embed id metadata document c).2 = .ok () → ∀ j, j ≠ id →
    chroma.lookup (chroma.upsert embed id metadata document c).1 j = chroma.lookup c j

/-- A collection that has the laws: a dictionary. -/
def dictCollection : Chroma (Dict Text Sample) ε where
  create := .empty
  upsert embed id metadata document c :=
    match embed [document] with
    | .error e => (c, .error e)
    | .ok _ => (c.set id ⟨metadata.category, document⟩, .ok ())
  lookup c id := c.get? id

theorem dictCollection_lawful : (dictCollection : Chroma (Dict Text Sample) ε).Lawful where
  lookup_create _ := rfl
  embed_returns embed id metadata document c h := by
    cases hembed : embed [document] with
    | error e => simp [dictCollection, hembed] at h
    | ok vs => exact ⟨vs, rfl⟩
  lookup_of_raises embed id metadata document c e h j := by
    cases hembed : embed [document] with
    | error e' => simp only [dictCollection, hembed]
    | ok vs => simp [dictCollection, hembed] at h
  lookup_self embed id metadata document c h := by
    cases hembed : embed [document] with
    | error e' => simp [dictCollection, hembed] at h
    | ok vs => simp only [dictCollection, hembed, Dict.get?_set_self]
  lookup_other embed id metadata document c h j hj := by
    cases hembed : embed [document] with
    | error e' => simp [dictCollection, hembed] at h
    | ok vs => simp only [dictCollection, hembed, Dict.get?_set_ne c hj]

/-- One call `python vecstore.py file category`, with what it finds outside. -/
structure Upload (ε : Type) where
  /-- `open(file).read()` -/
  read : Except Exc Text
  category : Text
  embeddingsOf : EmbeddingCall ε

/-- The code `x` is uploaded with this category. -/
def demoUpload (category : Text) : Upload Unit := ⟨.ok ['x'], category, fun _ _ => .ok (some ())⟩

section Program

variable {κ : Type} (chroma : Chroma κ ε) (sha256 : Text → Text)

def vecstoreMain (u : Upload ε) (c : κ) : κ × Except Exc Unit :=
  match u.read with
  | .error e => (c, .error e)
  | .ok code =>
      chroma.upsert (ollamaEmbedding u.embeddingsOf) (sha256 code) ⟨u.category⟩ code c

/-- The collection after some calls, whether they succeed or not. -/
def uploads (us : List (Upload ε)) (c : κ) : κ :=
  us.foldl (fun c u => (vecstoreMain chroma sha256 u c).1) c

/-- The sample of a call whose file can be read. -/
def Upload.sample (u : Upload ε) : Option Sample := u.read.toOption.map (Sample.mk u.category)

/-- The samples of the calls that end normally, in their order. -/
def succeeded : List (Upload ε) → κ → List Sample
  | [], _ => []
  | u :: us, c =>
      (match (vecstoreMain chroma sha256 u c).2 with
        | .ok _ => u.sample.toList
        | .error _ => []) ++ succeeded us (vecstoreMain chroma sha256 u c).1

end Program

/-! ## What is stored -/

section Stored

variable {κ : Type} {chroma : Chroma κ ε} {sha256 : Text → Text} {us : List (Upload ε)} {c : κ}
  {code : Text}

/-- **One call** stores the code that it has read and that the model has embedded, and ends normally;
or it raises and changes nothing. -/
theorem vecstoreMain_spec (h : chroma.Lawful) (sha256 : Text → Text) (u : Upload ε) (c : κ) :
    (∃ code v, u.read = .ok code ∧
        u.embeddingsOf (txt "nomic-embed-text") code = .ok (some v) ∧
        (vecstoreMain chroma sha256 u c).2 = .ok () ∧
        ∀ id, chroma.lookup (vecstoreMain chroma sha256 u c).1 id =
          if id = sha256 code then some ⟨u.category, code⟩ else chroma.lookup c id) ∨
      ∃ e, (vecstoreMain chroma sha256 u c).2 = .error e ∧
        ∀ id, chroma.lookup (vecstoreMain chroma sha256 u c).1 id = chroma.lookup c id := by
  unfold vecstoreMain
  cases u.read with
  | error e => exact .inr ⟨e, rfl, fun _ => rfl⟩
  | ok code =>
      dsimp only
      cases hend : (chroma.upsert (ollamaEmbedding u.embeddingsOf) (sha256 code) ⟨u.category⟩
          code c).2 with
      | error e => exact .inr ⟨e, rfl, h.lookup_of_raises _ _ _ _ _ e hend⟩
      | ok _ =>
          obtain ⟨vs, hvs⟩ := h.embed_returns _ _ _ _ _ hend
          obtain ⟨v, hv⟩ := exists_embedding hvs
          refine .inl ⟨code, v, rfl, hv, rfl, fun id => ?_⟩
          by_cases hid : id = sha256 code
          · rw [if_pos hid, hid]
            exact h.lookup_self _ _ _ _ _ hend
          · rw [if_neg hid]
            exact h.lookup_other _ _ _ _ _ hend id hid

/-- Each round adds its sample to what was found before it. -/
theorem lookup_uploads (h : chroma.Lawful) (sha256 : Text → Text) (us : List (Upload ε)) (c : κ)
    (id : Text) :
    chroma.lookup (uploads chroma sha256 us c) id =
      ((succeeded chroma sha256 us c).reverse.find? fun sample => sha256 sample.code = id).or
        (chroma.lookup c id) := by
  induction us generalizing c with
  | nil => rfl
  | cons u us ih =>
      show chroma.lookup (uploads chroma sha256 us (vecstoreMain chroma sha256 u c).1) id = _
      rw [ih]
      rcases vecstoreMain_spec h sha256 u c with ⟨code, v, hread, -, hend, hget⟩ | ⟨e, hend, hget⟩
      · have hsample : u.sample = some ⟨u.category, code⟩ := by
          unfold Upload.sample
          rw [hread]
          rfl
        simp only [succeeded, hend, hsample, hget, Option.toList_some, List.singleton_append,
          List.reverse_cons, List.find?_append, Option.or_assoc]
        congr 1
        by_cases hid : id = sha256 code
        · simp [hid]
        · simp [hid, Ne.symm hid]
      · simp only [succeeded, hend, hget, List.nil_append]

/-- **What the collection holds** after any calls, failing ones included: under each id the sample of
the last call that ended normally and whose code has this hash, else what was there before. A call
ends normally only if its file was read and the model gave an embedding of what is in it. -/
theorem uploads_content (chroma : Chroma κ ε) (h : chroma.Lawful) (sha256 : Text → Text)
    (us : List (Upload ε)) (c : κ) :
    (∀ id, chroma.lookup (uploads chroma sha256 us c) id =
        ((succeeded chroma sha256 us c).reverse.find? fun sample => sha256 sample.code = id).or
          (chroma.lookup c id)) ∧
      ∀ (u : Upload ε) (c' : κ), (vecstoreMain chroma sha256 u c').2 = .ok () →
        ∃ code v, u.read = .ok code ∧
          u.embeddingsOf (txt "nomic-embed-text") code = .ok (some v) := by
  refine ⟨fun id => lookup_uploads h sha256 us c id, fun u c' hok => ?_⟩
  rcases vecstoreMain_spec h sha256 u c' with ⟨code, v, hread, hv, -⟩ | ⟨e, hend, -⟩
  · exact ⟨code, v, hread, hv⟩
  · rw [hend] at hok
    cases hok

/-- The code is stored twice, and a third call gets no embedding for it. -/
theorem uploads_content_demo :
    (dictCollection : Chroma _ Unit).lookup (uploads dictCollection id
      [demoUpload ['D', 'S', 'A'], demoUpload ['R', 'S', 'A'], ⟨.ok ['x'], [], fun _ _ => .ok none⟩]
      .empty) ['x'] = some ⟨['R', 'S', 'A'], ['x']⟩ :=
  (uploads_content dictCollection dictCollection_lawful id _ .empty).1 ['x']

/-- The sample was stored by one of the calls, and no later call stored one under its id. -/
def Current (chroma : Chroma κ ε) (sha256 : Text → Text) (us : List (Upload ε)) (sample : Sample) :
    Prop :=
  ∃ before after, succeeded chroma sha256 us chroma.create = before ++ sample :: after ∧
    ∀ later ∈ after, sha256 later.code ≠ sha256 sample.code

/-- Nothing outdated is in the collection. No hash is assumed to be good for this. -/
theorem current_of_lookup (h : chroma.Lawful) {id : Text} {sample : Sample}
    (hget : chroma.lookup (uploads chroma sha256 us chroma.create) id = some sample) :
    Current chroma sha256 us sample := by
  rw [lookup_uploads h, h.lookup_create, Option.or_none, List.find?_eq_some_iff_append] at hget
  obtain ⟨hid, later, earlier, hsplit, hlater⟩ := hget
  have hid' : sha256 sample.code = id := of_decide_eq_true hid
  refine ⟨earlier.reverse, later.reverse, ?_, ?_⟩
  · rw [← List.reverse_reverse (succeeded chroma sha256 us chroma.create), hsplit]
    simp
  · intro x hx heq
    have hx' := hlater x (List.mem_reverse.mp hx)
    rw [heq, hid'] at hx'
    simp at hx'

/-- The category found for a code. -/
def labelOf (chroma : Chroma κ ε) (sha256 : Text → Text) (c : κ) (code : Text) : Option Text :=
  (chroma.lookup c (sha256 code)).map Sample.category

/-- **The collection is a map from code to category**, as long as the hash keeps the codes apart:
after any calls on any collection, a code has the category that the last call which ended normally
gave it, and the one it had before if there is no such call. -/
theorem labelOf_uploads (chroma : Chroma κ ε) (h : chroma.Lawful) (sha256 : Text → Text)
    (us : List (Upload ε)) (c : κ) (code : Text)
    (hinj : Set.InjOn sha256
      (insert code {x | ∃ sample ∈ succeeded chroma sha256 us c, sample.code = x})) :
    labelOf chroma sha256 (uploads chroma sha256 us c) code =
      (((succeeded chroma sha256 us c).reverse.find? fun sample => sample.code = code).map
        Sample.category).or (labelOf chroma sha256 c code) := by
  have hfind : ((succeeded chroma sha256 us c).reverse.find?
        fun sample => sha256 sample.code = sha256 code) =
      (succeeded chroma sha256 us c).reverse.find? fun sample => sample.code = code := by
    apply List.find?_congr
    intro sample hsample
    have hmem : sample ∈ succeeded chroma sha256 us c := List.mem_reverse.mp hsample
    have hcodes : sha256 sample.code = sha256 code ↔ sample.code = code := by
      refine ⟨fun heq => ?_, fun heq => by rw [heq]⟩
      exact hinj (Set.mem_insert_of_mem _ ⟨sample, hmem, rfl⟩) (Set.mem_insert _ _) heq
    simp only [hcodes]
  unfold labelOf
  rw [lookup_uploads h, hfind, Option.map_or]

/-- The second upload counts. -/
theorem labelOf_uploads_demo :
    labelOf (dictCollection : Chroma _ Unit) id
      (uploads dictCollection id [demoUpload ['D', 'S', 'A'], demoUpload ['R', 'S', 'A']] .empty)
      ['x'] = some ['R', 'S', 'A'] :=
  labelOf_uploads dictCollection dictCollection_lawful id _ _ ['x'] Function.injective_id.injOn

end Stored

end CryptoScan
