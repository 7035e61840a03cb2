import CryptoScan.VulnChecker.Verified

/-!
# `vuln_checker.py` as a program, with any services

`Verified.lean` follows the report on the assumption that every request is answered. Here the
services may fail at any call, and all results are about the whole loop over the installed packages.

* **Finishing** (`main_finishes_iff`) — the exact condition on the calls under which the program runs
  to its end.
* **Soundness** (`mem_main_sound`) — whatever is reported, also by a run that raises later, was found
  in this way: listed for the package, fetched, answered yes, and with the installed version in one of
  the record's entries. The report's fields are that record's.
* **The output** (`main_log`) — of a run that finishes, line by line: order and multiplicity included.
-/

namespace CryptoScan.VulnChecker

open Python

variable {s : Services} {lower : Text → Text} {pkg : Package} {algorithm name : Text}

/-! ## One round -/

section OneRound

variable {v : VulnRef} {i : Nat} {record : Record} {e : Exc}

theorem runRound_of_fetch_error (h : fetchDetails s i v = .error e) :
    runRound s lower pkg algorithm (v, i) [] = ([], .error e) := by
  unfold runRound checkVuln
  rw [Gen.forEach_bind, Gen.forEach_ofExcept, h, andThen_error]

theorem runRound_of_ask_error (hfetch : fetchDetails s i v = .ok record)
    (h : askModel s i pkg.projectName algorithm record = .error e) :
    runRound s lower pkg algorithm (v, i) [] = ([], .error e) := by
  unfold runRound checkVuln
  rw [Gen.forEach_bind, Gen.forEach_ofExcept, hfetch, andThen_ok, Gen.forEach_bind,
    Gen.forEach_ofExcept, h, andThen_error]

/-- A round that prints anything, or ends normally, has got its record and its answer. -/
theorem runRound_cases (s : Services) (lower : Text → Text) (pkg : Package) (algorithm : Text)
    (v : VulnRef) (i : Nat) :
    (∃ record answer, Gets s pkg.projectName algorithm i v record answer) ∨
      ∃ e, runRound s lower pkg algorithm (v, i) [] = ([], .error e) := by
  cases hfetch : fetchDetails s i v with
  | error e => exact .inr ⟨e, runRound_of_fetch_error hfetch⟩
  | ok record =>
      cases hask : askModel s i pkg.projectName algorithm record with
      | error e => exact .inr ⟨e, runRound_of_ask_error hfetch hask⟩
      | ok answer =>
          exact .inl ⟨record, answer, fetchDetails_eq_ok_iff.mp hfetch, askModel_eq_ok_iff.mp hask⟩

/-- The calls of a round are answered, and the record is complete if it has to be reported on. -/
def RoundFinishes (s : Services) (lower : Text → Text) (pkg : Package) (algorithm : Text) (i : Nat)
    (v : VulnRef) : Prop :=
  ∃ record answer, Gets s pkg.projectName algorithm i v record answer ∧
    (SaysYes lower answer → record.Complete)

theorem runRound_finishes_iff :
    (runRound s lower pkg algorithm (v, i) []).2 = .ok () ↔
      RoundFinishes s lower pkg algorithm i v := by
  constructor
  · intro hok
    rcases runRound_cases s lower pkg algorithm v i with ⟨record, answer, hgets⟩ | ⟨e, he⟩
    · exact ⟨record, answer, hgets, hgets.runRound_ok_iff.mp hok⟩
    · rw [he] at hok
      cases hok
  · rintro ⟨record, answer, hgets, hc⟩
    exact hgets.runRound_ok_iff.mpr hc

end OneRound

/-! ## One package -/

section OnePackage

variable {round : Nat} {report : Report}

theorem checkPackage_of_init_error {e : Exc}
    (h : VulnerabilityChecker.init s pkg.projectName (txt "python") = .error e) :
    checkPackage s lower pkg [] =
      ([.line (txt "\nChecking package " ++ pkg.projectName)], .error e) := by
  unfold checkPackage
  rw [h]
  rfl

/-- The query for a package is answered, and the round of everything it lists finishes. -/
def Finishes (s : Services) (lower : Text → Text) (pkg : Package) : Prop :=
  ∃ vulns, Listed s pkg.projectName vulns ∧
    ∀ i v, vulns[i]? = some v → RoundFinishes s lower pkg (txt "RSA") i v

theorem checkPackage_finishes_iff :
    (checkPackage s lower pkg []).2 = .ok () ↔ Finishes s lower pkg := by
  have hrounds : ∀ vulns : List VulnRef,
      firstError (fun v => (runRound s lower pkg (txt "RSA") v []).2) vulns.zipIdx = .ok () ↔
        ∀ i v, vulns[i]? = some v → RoundFinishes s lower pkg (txt "RSA") i v := by
    intro vulns
    rw [firstError_eq_ok_iff]
    simp only [Prod.forall, List.mem_zipIdx_iff_getElem?, runRound_finishes_iff]
    exact forall_comm
  constructor
  · intro hok
    cases hinit : VulnerabilityChecker.init s pkg.projectName (txt "python") with
    | error e =>
        rw [checkPackage_of_init_error hinit] at hok
        cases hok
    | ok checker =>
        obtain ⟨vulns, hlisted, -⟩ := init_eq_ok_iff.mp hinit
        rw [checkPackage_eq hlisted] at hok
        exact ⟨vulns, hlisted, (hrounds vulns).mp hok⟩
  · rintro ⟨vulns, hlisted, hall⟩
    rw [checkPackage_eq hlisted]
    exact (hrounds vulns).mpr hall

/-- What a report rests on: a listed vulnerability, its record, a yes, and an entry of the record with
the installed version. -/
def Grounded (s : Services) (lower : Text → Text) (pkg : Package) (round : Nat) (report : Report) :
    Prop :=
  ∃ vulns v record answer, Listed s pkg.projectName vulns ∧ vulns[round]? = some v ∧
    Gets s pkg.projectName (txt "RSA") round v record answer ∧ SaysYes lower answer ∧
    record.Backs pkg report

/-- This holds whether the check of the package finishes or not. -/
theorem of_mem_checkPackage
    (h : Event.affected round report ∈ (checkPackage s lower pkg []).1) :
    Grounded s lower pkg round report := by
  cases hinit : VulnerabilityChecker.init s pkg.projectName (txt "python") with
  | error e =>
      rw [checkPackage_of_init_error hinit] at h
      simp at h
  | ok checker =>
      obtain ⟨vulns, hlisted, -⟩ := init_eq_ok_iff.mp hinit
      rw [checkPackage_eq hlisted, List.mem_cons] at h
      rcases h with hline | hmem
      · cases hline
      · obtain ⟨⟨v, i⟩, hreached, hev⟩ := List.mem_flatMap.mp hmem
        rcases runRound_cases s lower pkg (txt "RSA") v i with ⟨record, answer, hgets⟩ | ⟨e, he⟩
        · obtain ⟨rfl, hyes, hbacks⟩ := of_mem_runRound hgets hev
          exact ⟨vulns, v, record, answer, hlisted,
            List.mem_zipIdx_iff_getElem?.mp (reached_subset _ _ hreached), hgets, hyes, hbacks⟩
        · rw [he] at hev
          cases hev

end OnePackage

/-! ## The program -/

section Program

/-- **When the program finishes**: for every installed package the query is answered, for every
vulnerability listed there is a record and an answer of the model, and where the answer is yes every
entry of the record has `versions`. (`vulns` and `affected` are lists, or missing.) -/
theorem main_finishes_iff (services : Package → Services) (lower : Text → Text)
    (workingSet : List Package) :
    (main services lower workingSet).2 = .ok () ↔
      ∀ pkg ∈ workingSet, Finishes (services pkg) lower pkg := by
  rw [main_eq]
  show firstError _ _ = _ ↔ _
  rw [firstError_eq_ok_iff]
  apply forall₂_congr
  intro pkg _
  exact checkPackage_finishes_iff

/-- **Nothing is invented.** Every report, of a run that finishes or not, is about an installed
package and a record that was fetched for a vulnerability listed for it; the model said yes to that
record, one of its entries has the installed version among its versions, and the report shows the
package, the record's id and summary, and these versions. -/
theorem mem_main_sound (services : Package → Services) (lower : Text → Text)
    (workingSet : List Package) (round : Nat) (report : Report)
    (h : Event.affected round report ∈ (main services lower workingSet).1) :
    ∃ pkg ∈ workingSet, Grounded (services pkg) lower pkg round report := by
  rw [main_eq] at h
  obtain ⟨pkg, hreached, hmem⟩ := List.mem_flatMap.mp h
  exact ⟨pkg, reached_subset _ _ hreached, of_mem_checkPackage hmem⟩

/-- The demo package is reported, on an entry for another package, with the versions of that. -/
theorem mem_main_sound_demo :
    ∃ report, Event.affected 0 report ∈ (main (fun _ => demoServices [⟨some ['q'], some [['1']]⟩])
        (List.map Char.toLower) [demoPackage]).1 ∧
      report.package = ['p'] ∧ report.affectedVersions = [['1']] := by
  have h := demoServices_answers [⟨some ['q'], some [['1']]⟩]
  have hok := (checkPackage_ok_iff (List.map Char.toLower) h).mpr
    fun _ _ _ => by simp [Record.Complete, Record.entries]
  obtain ⟨report, hmem, -⟩ := reported_complete h hok (i := 0) (by decide) demo_saysYes
    (List.mem_singleton_self _) ⟨_, rfl, List.mem_singleton_self _⟩
  have hmain : Event.affected 0 report ∈ (main (fun _ => demoServices [⟨some ['q'], some [['1']]⟩])
      (List.map Char.toLower) [demoPackage]).1 := by
    rw [main_eq, reached_of_ok fun pkg hpkg => by rw [List.mem_singleton.mp hpkg]; exact hok]
    exact List.mem_flatMap.mpr ⟨demoPackage, List.mem_singleton_self _, hmem⟩
  obtain ⟨pkg, hpkg, vulns, v, record, answer, -, -, hgets, -, entry, hentry, versions, hversions,
    -, rfl⟩ := mem_main_sound _ _ _ _ _ hmain
  cases hgets.get
  rw [List.mem_singleton.mp hentry] at hversions
  cases hversions
  exact ⟨_, hmain, by rw [List.mem_singleton.mp hpkg]; rfl, rfl⟩

/-! ## The output of a run that finishes -/

/-- The report for an entry, if it lists the installed version. -/
def entryEvent (pkg : Package) (vuln : Finding) (entry : Affected) : Option Event :=
  entry.versions.bind fun versions =>
    if versions.contains pkg.version then
      some (.affected vuln.round (reportOf pkg vuln versions))
    else none

/-- The output of one round: the model's answer, then a report for each entry with the version. -/
def roundLog (lower : Text → Text) (pkg : Package) (i : Nat) (record : Record) (answer : Text) :
    Log :=
  .line (txt "Answer: " ++ strip answer) ::
    if SaysYes lower answer then record.entries.filterMap (entryEvent pkg ⟨i, record⟩) else []

/-- The output for one package with `n` vulnerabilities. -/
def packageLog (lower : Text → Text) (pkg : Package) (n : Nat) (record : Nat → Record)
    (answer : Nat → Text) : Log :=
  .line (txt "\nChecking package " ++ pkg.projectName) ::
    (List.range n).flatMap fun i => roundLog lower pkg i (record i) (answer i)

theorem reportEntry_eq (pkg : Package) (vuln : Finding) (entry : Affected) :
    (reportEntry pkg vuln entry []).1 = (entryEvent pkg vuln entry).toList := by
  unfold reportEntry entryEvent
  cases entry.versions with
  | none => rfl
  | some versions =>
      by_cases h : pkg.version ∈ versions
      · simp [h]
      · simp [h]

theorem reportVuln_log (pkg : Package) (vuln : Finding) (hc : vuln.record.Complete) :
    (reportVuln pkg vuln []).1 = vuln.record.entries.filterMap (entryEvent pkg vuln) := by
  have hok := (reportVuln_ok_iff pkg vuln).mpr hc
  rw [reportVuln_eq] at hok ⊢
  rw [reached_of_ok (firstError_eq_ok_iff.mp hok), List.filterMap_eq_flatMap_toList]
  simp only [reportEntry_eq]

theorem runRound_log {v : VulnRef} {i : Nat} {record : Record} {answer : Text}
    (h : Gets s pkg.projectName algorithm i v record answer)
    (hc : SaysYes lower answer → record.Complete) :
    (runRound s lower pkg algorithm (v, i) []).1 = roundLog lower pkg i record answer := by
  rw [runRound_eq h]
  unfold roundLog
  by_cases hyes : SaysYes lower answer
  · rw [if_pos hyes, if_pos hyes, reportVuln_writes pkg ⟨i, record⟩,
      reportVuln_log pkg ⟨i, record⟩ (hc hyes)]
    rfl
  · rw [if_neg hyes, if_neg hyes]

theorem checkPackage_log {vulns : List VulnRef} {record : Nat → Record} {answer : Nat → Text}
    (h : Answers s pkg.projectName vulns record answer)
    (hc : ∀ i < vulns.length, SaysYes lower (answer i) → (record i).Complete) :
    checkPackage s lower pkg [] = (packageLog lower pkg vulns.length record answer, .ok ()) := by
  have hok := (checkPackage_ok_iff lower h).mpr hc
  rw [checkPackage_eq h.listed] at hok ⊢
  have hends : firstError (fun v => (runRound s lower pkg (txt "RSA") v []).2) vulns.zipIdx =
      .ok () := hok
  rw [hends, reached_of_ok (firstError_eq_ok_iff.mp hends)]
  congr 1
  unfold packageLog
  congr 1
  -- the rounds are numbered: what they print depends on their number only
  have hrange : List.range vulns.length = vulns.zipIdx.map Prod.snd := by
    rw [List.zipIdx_map_snd, List.range_eq_range']
  rw [hrange, List.flatMap_map]
  apply List.flatMap_congr
  rintro ⟨v, i⟩ hmem
  obtain ⟨hi, hgets⟩ := h.of_mem_zipIdx hmem
  exact runRound_log hgets (hc i hi)

/-- **The output, line by line.** If the services answer and the records to report are complete, the
program prints for each package its heading and then, in the order of the query, the model's answer
on each vulnerability, followed, on a yes, by one report for each entry that lists the installed
version, in the order of the record. -/
theorem main_log (services : Package → Services) (lower : Text → Text) (workingSet : List Package)
    (vulns : Package → List VulnRef) (record : Package → Nat → Record)
    (answer : Package → Nat → Text)
    (h : ∀ pkg ∈ workingSet,
      Answers (services pkg) pkg.projectName (vulns pkg) (record pkg) (answer pkg))
    (hc : ∀ pkg ∈ workingSet, ∀ i < (vulns pkg).length,
      SaysYes lower (answer pkg i) → (record pkg i).Complete) :
    main services lower workingSet =
      (workingSet.flatMap fun pkg =>
        packageLog lower pkg (vulns pkg).length (record pkg) (answer pkg), .ok ()) := by
  have hlog : ∀ pkg ∈ workingSet, checkPackage (services pkg) lower pkg [] =
      (packageLog lower pkg (vulns pkg).length (record pkg) (answer pkg), .ok ()) :=
    fun pkg hpkg => checkPackage_log (h pkg hpkg) (hc pkg hpkg)
  have hok : ∀ pkg ∈ workingSet, (checkPackage (services pkg) lower pkg []).2 = .ok () := by
    intro pkg hpkg
    rw [hlog pkg hpkg]
  rw [main_eq, reached_of_ok hok, firstError_eq_ok_iff.mpr hok]
  congr 1
  apply List.flatMap_congr
  intro pkg hpkg
  rw [hlog pkg hpkg]

/-- The output for the demo package: heading, answer, report. -/
theorem main_log_demo :
    main (fun _ => demoServices [⟨some ['p'], some [['1']]⟩]) (List.map Char.toLower) [demoPackage] =
      (packageLog (List.map Char.toLower) demoPackage 1
        (fun _ => ⟨none, none, none, some [⟨some ['p'], some [['1']]⟩]⟩)
        (fun _ => ['Y', 'e', 's', '\n']), .ok ()) := by
  have h := main_log (fun _ => demoServices [⟨some ['p'], some [['1']]⟩]) (List.map Char.toLower)
    [demoPackage] (fun _ => [⟨none⟩])
    (fun _ _ => ⟨none, none, none, some [⟨some ['p'], some [['1']]⟩]⟩)
    (fun _ _ => ['Y', 'e', 's', '\n'])
    (fun pkg hpkg => by
      rw [List.mem_singleton.mp hpkg]
      exact demoServices_answers [⟨some ['p'], some [['1']]⟩])
    (fun _ _ _ _ _ => by simp [Record.Complete, Record.entries])
  rw [List.flatMap_singleton] at h
  exact h

end Program

end CryptoScan.VulnChecker
