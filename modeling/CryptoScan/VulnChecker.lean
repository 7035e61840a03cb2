import CryptoScan.Python.Generator

/-!
# `vuln_checker.py`: known vulnerabilities of the installed packages

For each installed package the OSV database is asked for its vulnerabilities. A vulnerability's
record is fetched, the model is asked whether it touches the algorithm, and if it says yes the
record's `affected` entries are searched for the installed version. The outer loop is the consumer
of a generator, so a record is reported on before the next one is fetched.

What is reported is known exactly (`checkPackage_eq`). It is **not** what the report should say:

* an entry without `versions` raises, and that ends the whole program, not only this record
  (`main_stops`);
* the package an entry is about is never looked at, so the versions of another package count.

`report_correct_iff` says that nothing else can go wrong.
-/

namespace CryptoScan.VulnChecker

open Python

/-! ## The services -/

structure Package where
  projectName : Text
  version : Text

/-- An entry of a record's `affected` list. The program reads only `versions`. -/
structure Affected where
  packageName : Option Text
  versions : Option (List Text)

/-- A vulnerability record; any key may be missing, and `affected` is a list where it is there. -/
structure Record where
  id : Option Text
  summary : Option Text
  details : Option Text
  affected : Option (List Affected)

/-- A vulnerability as the query lists it. -/
structure VulnRef where
  id : Option Text

structure Response (α : Type) where
  statusCode : Nat
  json : Except Exc α

/-- The body of the query. -/
structure QueryData where
  name : Text
  ecosystem : Text

/-- The calls made while one package is checked. The calls for its vulnerabilities are numbered by
their round, so the same question may get different answers. -/
structure Services where
  /-- `requests.post(url, json=data)`; the JSON's `vulns` is a list, or missing -/
  post : (url : Text) → QueryData → Except Exc (Response (Option (List VulnRef)))
  /-- `requests.get(url)` -/
  get : (round : Nat) → (url : Text) → Except Exc (Response Record)
  /-- `client.generate(model, prompt).get("response")` -/
  generate : (round : Nat) → (model prompt : Text) → Except Exc (Option Text)

/-- `response.json()`, unless the status is an error. -/
def Response.body {α : Type} (response : Response α) : Except Exc α :=
  if response.statusCode = 200 then response.json
  else .error (.exception (txt "Failed to fetch data from OSV API"))

/-! ## The checker -/

def ecosystemForLanguage (language : Text) : Text :=
  if language = txt "python" then txt "PyPI"
  else if language = txt "java" then txt "maven"
  else txt "npm"

structure VulnerabilityChecker where
  depName : Text
  vulnerabilities : List VulnRef

/-- `__init__`. -/
def VulnerabilityChecker.init (s : Services) (depName projectLanguage : Text) :
    Except Exc VulnerabilityChecker := do
  let response ← s.post (txt "https://api.osv.dev/v1/query")
    ⟨depName, ecosystemForLanguage projectLanguage⟩
  let json ← response.body
  pure ⟨depName, json.getD []⟩

/-- A value in an f-string. -/
def shown : Option Text → Text
  | some t => t
  | none => txt "None"

def llmPrompt (depName algorithm : Text) (vulnDetails : Record) : Text :=
  txt "\n            The package " ++ depName ++
  txt " was found a vulnerability in the OSV database.\n" ++
  txt "            The vulnerability is described as follows:\n\n            Summary: " ++
  shown vulnDetails.summary ++ txt "\n            Details: " ++ shown vulnDetails.details ++
  txt "\n\n            Does the vulnerability affect the algorithm " ++ algorithm ++
  txt "?\n            Output a single word and only a single word: 'yes' or 'no'.\n            "

def fetchDetails (s : Services) (round : Nat) (vuln : VulnRef) : Except Exc Record := do
  let response ← s.get round (txt "https://api.osv.dev/v1/vulns" ++ txt "/" ++ shown vuln.id)
  response.body

/-- The model's answer; `None` has no `strip`. -/
def askModel (s : Services) (round : Nat) (depName algorithm : Text) (vulnDetails : Record) :
    Except Exc Text := do
  let response ← s.generate round (txt "codellama:7b") (llmPrompt depName algorithm vulnDetails)
  match response with
  | some answer => .ok answer
  | none => .error (.attributeError (txt "'NoneType' object has no attribute 'strip'"))

/-- `answer.lower().strip() == "yes"`. Lower-casing is Unicode's; nothing depends on how it works. -/
def SaysYes (lower : Text → Text) (answer : Text) : Prop := strip (lower answer) = txt "yes"

instance (lower : Text → Text) : DecidablePred (SaysYes lower) :=
  fun _ => inferInstanceAs (Decidable (_ = _))

/-- A yielded record. Every round makes a new object, so its round is its identity. -/
structure Finding where
  round : Nat
  record : Record

/-- The loop body of `vulns_for_algorithm`. -/
def checkVuln (s : Services) (lower : Text → Text) (depName algorithm : Text)
    (v : VulnRef × Nat) : Gen Finding Empty Exc Unit := do
  let vulnDetails ← Gen.ofExcept (fetchDetails s v.2 v.1)
  let answer ← Gen.ofExcept (askModel s v.2 depName algorithm vulnDetails)
  Gen.say (txt "Answer: " ++ strip answer)
  if SaysYes lower answer then Gen.yield ⟨v.2, vulnDetails⟩ else pure ()

def VulnerabilityChecker.vulnsForAlgorithm (s : Services) (lower : Text → Text)
    (self : VulnerabilityChecker) (algorithm : Text) : Gen Finding Empty Exc Unit :=
  Gen.each self.vulnerabilities.zipIdx (checkVuln s lower self.depName algorithm)

/-! ## The reporting loop -/

/-- What the four `print` calls say. -/
structure Report where
  package : Text
  vulnerability : Option Text
  currentVersion : Text
  affectedVersions : List Text
  summary : Option Text

/-- The program's output: lines, and reports with the round of the record they are about. -/
inductive Event where
  | line (text : Text)
  | affected (round : Nat) (report : Report)

abbrev Log := List Event

def reportOf (pkg : Package) (vuln : Finding) (affectedVersions : List Text) : Report :=
  ⟨pkg.projectName, vuln.record.id, pkg.version, affectedVersions, vuln.record.summary⟩

/-- The body of the loop over `affected`. -/
def reportEntry (pkg : Package) (vuln : Finding) (entry : Affected) (log : Log) :
    Log × Except Exc Unit :=
  match entry.versions with
  -- `current_version in None`
  | none => (log, .error (.typeError (txt "argument of type 'NoneType' is not iterable")))
  | some affectedVersions =>
      -- `entry.packageName` is not looked at
      if pkg.version ∈ affectedVersions then
        (log ++ [.affected vuln.round (reportOf pkg vuln affectedVersions)], .ok ())
      else (log, .ok ())

/-- `vuln.get("affected", [])`. -/
def Record.entries (r : Record) : List Affected := r.affected.getD []

def reportVuln (pkg : Package) (vuln : Finding) (log : Log) : Log × Except Exc Unit :=
  forList (reportEntry pkg vuln) vuln.record.entries log

def reporter (pkg : Package) : Gen.Consumer Finding Exc Log where
  say l log := log ++ [.line l]
  body := reportVuln pkg

/-- The body of the loop over the installed packages. -/
def checkPackage (s : Services) (lower : Text → Text) (pkg : Package) (log : Log) :
    Log × Except Exc Unit :=
  let log := log ++ [.line (txt "\nChecking package " ++ pkg.projectName)]
  match VulnerabilityChecker.init s pkg.projectName (txt "python") with
  | .ok checker => (checker.vulnsForAlgorithm s lower (txt "RSA")).forEach (reporter pkg) log
  | .error e => (log, .error e)

/-- The program, with the services as each package finds them. -/
def main (services : Package → Services) (lower : Text → Text) (workingSet : List Package) :
    Log × Except Exc Unit :=
  forList (fun pkg => checkPackage (services pkg) lower pkg) workingSet []

/-! ## Every level writes -/

section Levels

variable {s : Services} {lower : Text → Text} {pkg : Package} {vuln : Finding}

/-- What one entry adds to the output. -/
theorem reportEntry_writes (pkg : Package) (vuln : Finding) (entry : Affected) :
    Writes (reportEntry pkg vuln entry) := by
  intro log
  unfold reportEntry
  cases entry.versions with
  | none => simp
  | some affectedVersions =>
      by_cases h : pkg.version ∈ affectedVersions
      · simp [h]
      · simp [h]

theorem reportVuln_writes (pkg : Package) (vuln : Finding) : Writes (reportVuln pkg vuln) :=
  Writes.forList fun entry _ => reportEntry_writes pkg vuln entry

theorem checkVuln_writes (s : Services) (lower : Text → Text) (pkg : Package)
    (algorithm : Text) (v : VulnRef × Nat) :
    Writes ((checkVuln s lower pkg.projectName algorithm v).forEach (reporter pkg)) :=
  Gen.forEach_writes (fun _ _ => rfl) (reportVuln_writes pkg) _

theorem checkPackage_writes (s : Services) (lower : Text → Text) (pkg : Package) :
    Writes (checkPackage s lower pkg) := by
  intro log
  unfold checkPackage
  cases VulnerabilityChecker.init s pkg.projectName (txt "python") with
  | error e => rfl
  | ok checker =>
      have hw := Gen.forEach_writes (c := reporter pkg) (fun _ _ => rfl) (reportVuln_writes pkg)
        (checker.vulnsForAlgorithm s lower (txt "RSA"))
      show Gen.forEach _ _ _ = (log ++ (Gen.forEach _ _ _).1, (Gen.forEach _ _ _).2)
      rw [hw (log ++ _), hw ([] ++ _), List.append_assoc]
      rfl

end Levels

end CryptoScan.VulnChecker
