import CryptoScan.Python.Json
import CryptoScan.Categorize

/-!
# `categorize.py` as a program

`python categorize.py file` prints what was retrieved for a file, as JSON. Other programs only see
this text, so it has to say everything: `categorizeMain_determines`. A category or an id is free
text here; quotes, line breaks and brackets in it do no harm.

`repr` is `float.__repr__` on the finite floats. Nothing is assumed about it but that it writes
numbers.
-/

namespace CryptoScan

open Python

variable {repr : ℚ → Number}

/-! ## The program -/

def Metadata.toJson (m : Metadata) : Json := .obj [(txt "category", .str m.category)]

/-- The dictionary that is printed. Its keys are in order as they stand. -/
def FileMetadata.toJson (repr : ℚ → Number) (m : FileMetadata) : Json :=
  .obj [(txt "categories", .arr (m.categories.map Metadata.toJson)),
    (txt "distances", .arr (m.distances.map fun x => .num (floatNumber repr x))),
    (txt "ids", .arr (m.ids.map .str))]

/-- `classify_file` with what it prints. -/
def classifyFileStep (repr : ℚ → Number) (w : World) (filePath : Path) (printStep : Bool) :
    List Text × Except Exc FileMetadata :=
  match classifyFile w filePath with
  | .error e => ([], .error e)
  | .ok response =>
      (if printStep then [dumps 0 (response.toJson repr)] else [], .ok response)

/-- `python categorize.py file`: what it prints, and how it ends. -/
def categorizeMain (repr : ℚ → Number) (w : World) :
    (argv : List Text) → List Text × Except Exc Unit
  | _ :: filePath :: _ =>
      let (out, response) := classifyFileStep repr w filePath true
      (out, response.map fun _ => ())
  | _ => ([], .error (.indexError (txt "list index out of range")))

/-! ## Reading the output back -/

theorem Metadata.toJson_injective : Function.Injective Metadata.toJson := by
  intro m m' h
  cases m
  cases m'
  unfold Metadata.toJson at h
  simpa using h

theorem FileMetadata.of_toJson_eq {m m' : FileMetadata} (h : m.toJson repr = m'.toJson repr) :
    m.categories = m'.categories ∧
      m.distances.map (floatNumber repr) = m'.distances.map (floatNumber repr) ∧
      m.ids = m'.ids := by
  unfold FileMetadata.toJson at h
  simp only [Json.obj.injEq, List.cons.injEq, Prod.mk.injEq, Json.arr.injEq, true_and,
    and_true] at h
  obtain ⟨hcategories, hdistances, hids⟩ := h
  refine ⟨List.map_injective_iff.mpr Metadata.toJson_injective hcategories, ?_,
    List.map_injective_iff.mpr (fun _ _ => Json.str.inj) hids⟩
  have hnum : Function.Injective Json.num := fun _ _ => Json.num.inj
  apply List.map_injective_iff.mpr hnum
  rw [List.map_map, List.map_map]
  exact hdistances

/-- A run prints one text and ends normally, or it prints nothing and raises. -/
theorem categorizeMain_cases (repr : ℚ → Number) (w : World) (prog p : Text) :
    (∃ m, classifyFile w p = .ok m ∧
        categorizeMain repr w [prog, p] = ([dumps 0 (m.toJson repr)], .ok ())) ∨
      ∃ e, classifyFile w p = .error e ∧ categorizeMain repr w [prog, p] = ([], .error e) := by
  have hrun : categorizeMain repr w [prog, p] =
      ((classifyFileStep repr w p true).1,
        (classifyFileStep repr w p true).2.map fun _ => ()) := rfl
  rw [hrun]
  unfold classifyFileStep
  cases classifyFile w p with
  | ok m => exact .inl ⟨m, rfl, rfl⟩
  | error e => exact .inr ⟨e, rfl, rfl⟩

/-- **The output says everything that was retrieved.** If a run ends normally, and another one, on
any file in any world, prints the same, then both have found the same categories and ids in the same
order, and distances that are written alike. -/
theorem categorizeMain_determines (repr : ℚ → Number) (w w' : World) (prog prog' p p' : Text)
    (h : (categorizeMain repr w [prog, p]).2 = .ok ())
    (heq : (categorizeMain repr w' [prog', p']).1 = (categorizeMain repr w [prog, p]).1) :
    ∃ m m', classifyFile w p = .ok m ∧ classifyFile w' p' = .ok m' ∧
      m'.categories = m.categories ∧
      m'.distances.map (floatNumber repr) = m.distances.map (floatNumber repr) ∧
      m'.ids = m.ids := by
  rcases categorizeMain_cases repr w prog p with ⟨m, hm, hrun⟩ | ⟨e, -, hrun⟩
  · rcases categorizeMain_cases repr w' prog' p' with ⟨m', hm', hrun'⟩ | ⟨e', -, hrun'⟩
    · rw [hrun, hrun'] at heq
      have hjson := dumps_injective (List.cons.inj heq).1
      exact ⟨m, m', hm, hm', FileMetadata.of_toJson_eq hjson⟩
    · rw [hrun, hrun'] at heq
      cases heq
  · rw [hrun] at h
    cases h

/-- A store with one sample, whose category has a quote and a line break in it. -/
def demoStore (answer : Text) : World where
  directory _ := none
  read _ := .ok []
  query _ _ _ := .ok ⟨[[['i']]], [[⟨['"', '\n']⟩]], [[.finite 1]]⟩
  generate _ _ _ := .ok (some answer)
  chat _ _ _ := .ok ⟨none, some answer⟩

/-- Two files, two worlds, one output. -/
theorem categorizeMain_determines_demo :
    ∃ m m', classifyFile (demoStore []) ['a'] = .ok m ∧
      classifyFile (demoStore ['x']) ['b'] = .ok m' ∧ m'.categories = m.categories ∧
      m'.ids = m.ids := by
  obtain ⟨m, m', hm, hm', hcategories, -, hids⟩ :=
    categorizeMain_determines (fun _ => ⟨['1', '.', '0'], by decide, by decide⟩) (demoStore [])
      (demoStore ['x']) [] [] ['a'] ['b'] rfl rfl
  exact ⟨m, m', hm, hm', hcategories, hids⟩

end CryptoScan
