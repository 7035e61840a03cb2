import CryptoScan.VulnChecker

/-!
# What the vulnerability report says

The services are assumed to answer (`Answers`): status 200 on every request, some record for every
vulnerability and some text from the model (`Gets`, for one round). From there the report is followed
level by level, from one entry of a record to the list of installed packages. At each level there are
two questions: does the loop finish, and what is in the output.
-/

namespace CryptoScan.VulnChecker

open Python

variable {s : Services} {lower : Text → Text} {pkg : Package} {algorithm : Text}

/-! ## What the report should say -/

/-- The entry has a `versions` list, with this version in it. -/
def Affected.Lists (entry : Affected) (version : Text) : Prop :=
  ∃ versions, entry.versions = some versions ∧ version ∈ versions

/-- The record says that this package is affected. -/
def Record.Affects (record : Record) (pkg : Package) : Prop :=
  ∃ entry ∈ record.entries, entry.packageName = some pkg.projectName ∧ entry.Lists pkg.version

/-- Every entry has a `versions` list. -/
def Record.Complete (record : Record) : Prop := ∀ entry ∈ record.entries, entry.versions ≠ none

/-- Some report on the record of this round names the package. -/
def Reported (log : Log) (round : Nat) (name : Text) : Prop :=
  ∃ report, Event.affected round report ∈ log ∧ report.package = name

/-- The exception of `version in None`. -/
def notIterable : Exc := .typeError (txt "argument of type 'NoneType' is not iterable")

/-- An entry of the record lists the installed version, and this is the report on it. -/
def Record.Backs (record : Record) (pkg : Package) (report : Report) : Prop :=
  ∃ entry ∈ record.entries, ∃ versions, entry.versions = some versions ∧ pkg.version ∈ versions ∧
    report = ⟨pkg.projectName, record.id, pkg.version, versions, record.summary⟩

/-! ## The calls -/

/-- The query lists these vulnerabilities. -/
def Listed (s : Services) (name : Text) (vulns : List VulnRef) : Prop :=
  ∃ listed, s.post (txt "https://api.osv.dev/v1/query") ⟨name, txt "PyPI"⟩ =
    .ok ⟨200, .ok listed⟩ ∧ listed.getD [] = vulns

/-- Round `i` gets this record for `v`, and this answer to it. -/
structure Gets (s : Services) (name algorithm : Text) (i : Nat) (v : VulnRef) (record : Record)
    (answer : Text) : Prop where
  get : s.get i (txt "https://api.osv.dev/v1/vulns" ++ txt "/" ++ shown v.id) =
    .ok ⟨200, .ok record⟩
  generate : s.generate i (txt "codellama:7b") (llmPrompt name algorithm record) =
    .ok (some answer)

section Calls

variable {name : Text} {checker : VulnerabilityChecker} {v : VulnRef} {record : Record}
  {answer : Text} {i : Nat}

theorem Response.body_eq_ok_iff {α : Type} {response : Response α} {a : α} :
    response.body = .ok a ↔ response = ⟨200, .ok a⟩ := by
  obtain ⟨statusCode, json⟩ := response
  unfold Response.body
  by_cases h : statusCode = 200
  · simp [h]
  · simp [h]

theorem init_eq_ok_iff : VulnerabilityChecker.init s name (txt "python") = .ok checker ↔
    ∃ vulns, Listed s name vulns ∧ checker = ⟨name, vulns⟩ := by
  have heco : ecosystemForLanguage (txt "python") = txt "PyPI" := by
    unfold ecosystemForLanguage
    rw [if_pos rfl]
  unfold VulnerabilityChecker.init
  rw [heco]
  simp only [bind_eq_ok_iff, Response.body_eq_ok_iff]
  constructor
  · rintro ⟨response, hpost, listed, rfl, hchecker⟩
    cases hchecker
    exact ⟨_, ⟨listed, hpost, rfl⟩, rfl⟩
  · rintro ⟨vulns, ⟨listed, hpost, rfl⟩, rfl⟩
    exact ⟨_, hpost, listed, rfl, rfl⟩

theorem fetchDetails_eq_ok_iff : fetchDetails s i v = .ok record ↔
    s.get i (txt "https://api.osv.dev/v1/vulns" ++ txt "/" ++ shown v.id) =
      .ok ⟨200, .ok record⟩ := by
  unfold fetchDetails
  simp only [bind_eq_ok_iff, Response.body_eq_ok_iff]
  constructor
  · rintro ⟨response, hget, rfl⟩
    exact hget
  · exact fun hget => ⟨_, hget, rfl⟩

theorem askModel_eq_ok_iff : askModel s i name algorithm record = .ok answer ↔
    s.generate i (txt "codellama:7b") (llmPrompt name algorithm record) = .ok (some answer) := by
  unfold askModel
  rw [bind_eq_ok_iff]
  constructor
  · rintro ⟨response, hgen, h⟩
    cases response with
    | none => cases h
    | some t =>
        cases h
        exact hgen
  · exact fun hgen => ⟨_, hgen, rfl⟩

theorem Gets.fetch (h : Gets s name algorithm i v record answer) :
    fetchDetails s i v = .ok record :=
  fetchDetails_eq_ok_iff.mpr h.get

theorem Gets.ask (h : Gets s name algorithm i v record answer) :
    askModel s i name algorithm record = .ok answer :=
  askModel_eq_ok_iff.mpr h.generate

end Calls

/-! ## One record -/

section OneRecord

variable {entry : Affected} {vuln : Finding} {round : Nat} {report : Report}

theorem reportEntry_ends (pkg : Package) (vuln : Finding) (entry : Affected) :
    (entry.versions ≠ none ∧ (reportEntry pkg vuln entry []).2 = .ok ()) ∨
      (entry.versions = none ∧ (reportEntry pkg vuln entry []).2 = .error notIterable) := by
  unfold reportEntry
  cases entry.versions with
  | none => exact .inr ⟨rfl, rfl⟩
  | some affectedVersions =>
      refine .inl ⟨by simp, ?_⟩
      show (ite _ _ _ : Log × Except Exc Unit).2 = _
      split <;> rfl

theorem mem_reportEntry :
    Event.affected round report ∈ (reportEntry pkg vuln entry []).1 ↔
      ∃ affectedVersions, entry.versions = some affectedVersions ∧
        pkg.version ∈ affectedVersions ∧ round = vuln.round ∧
        report = reportOf pkg vuln affectedVersions := by
  unfold reportEntry
  cases entry.versions with
  | none => simp
  | some affectedVersions =>
      by_cases h : pkg.version ∈ affectedVersions
      · simp [h]
      · simp [h]

theorem reportVuln_eq (pkg : Package) (vuln : Finding) :
    reportVuln pkg vuln [] =
      ((reached (fun entry => (reportEntry pkg vuln entry []).2) vuln.record.entries).flatMap
          fun entry => (reportEntry pkg vuln entry []).1,
        firstError (fun entry => (reportEntry pkg vuln entry []).2) vuln.record.entries) := by
  unfold reportVuln
  rw [forList_of_writes fun entry _ => reportEntry_writes pkg vuln entry]
  rfl

/-- The loop over a record's entries finishes iff all of them have `versions`. -/
theorem reportVuln_ok_iff (pkg : Package) (vuln : Finding) :
    (reportVuln pkg vuln []).2 = .ok () ↔ vuln.record.Complete := by
  rw [reportVuln_eq]
  show firstError _ _ = _ ↔ _
  rw [firstError_eq_ok_iff]
  apply forall₂_congr
  intro entry _
  rcases reportEntry_ends pkg vuln entry with ⟨hv, he⟩ | ⟨hv, he⟩
  · exact iff_of_true he hv
  · rw [he]
    exact iff_of_false (fun h => nomatch h) (fun h => h hv)

theorem reportVuln_ends (pkg : Package) (vuln : Finding) :
    (reportVuln pkg vuln []).2 = .ok () ∨ (reportVuln pkg vuln []).2 = .error notIterable := by
  rw [reportVuln_eq]
  apply firstError_cases
  intro entry _
  rcases reportEntry_ends pkg vuln entry with ⟨-, he⟩ | ⟨-, he⟩
  · exact .inl he
  · exact .inr he

/-- Whatever is reported on a record has an entry that lists the version, and says so. -/
theorem of_mem_reportVuln (h : Event.affected round report ∈ (reportVuln pkg vuln []).1) :
    round = vuln.round ∧ vuln.record.Backs pkg report := by
  rw [reportVuln_eq] at h
  obtain ⟨entry, hreached, hmem⟩ := List.mem_flatMap.mp h
  obtain ⟨versions, hversions, hlisted, hround, hreport⟩ := mem_reportEntry.mp hmem
  exact ⟨hround, entry, reached_subset _ _ hreached, versions, hversions, hlisted, hreport⟩

/-- A complete record is reported for each entry that lists the version, whatever its package. -/
theorem reported_of_entry (pkg : Package) (vuln : Finding) (hc : vuln.record.Complete)
    (hmem : entry ∈ vuln.record.entries) (hlists : entry.Lists pkg.version) :
    Reported (reportVuln pkg vuln []).1 vuln.round pkg.projectName := by
  obtain ⟨versions, hversions, hlisted⟩ := hlists
  refine ⟨reportOf pkg vuln versions, ?_, rfl⟩
  have hok := (reportVuln_ok_iff pkg vuln).mpr hc
  rw [reportVuln_eq] at hok ⊢
  rw [reached_of_ok (firstError_eq_ok_iff.mp hok)]
  apply List.mem_flatMap.mpr
  exact ⟨entry, hmem, mem_reportEntry.mpr ⟨versions, hversions, hlisted, rfl, rfl⟩⟩

end OneRecord

/-! ## One round -/

section OneRound

variable {v : VulnRef} {i : Nat} {record : Record} {answer : Text} {round : Nat}

/-- The round of a vulnerability, as the reporting loop sees it. -/
def runRound (s : Services) (lower : Text → Text) (pkg : Package) (algorithm : Text)
    (v : VulnRef × Nat) : Log → Log × Except Exc Unit :=
  (checkVuln s lower pkg.projectName algorithm v).forEach (reporter pkg)

theorem runRound_eq (h : Gets s pkg.projectName algorithm i v record answer) :
    runRound s lower pkg algorithm (v, i) [] =
      if SaysYes lower answer then
        reportVuln pkg ⟨i, record⟩ [.line (txt "Answer: " ++ strip answer)]
      else ([.line (txt "Answer: " ++ strip answer)], .ok ()) := by
  unfold runRound checkVuln
  rw [Gen.forEach_bind, Gen.forEach_ofExcept, h.fetch]
  show Gen.forEach _ _ _ = _
  rw [Gen.forEach_bind, Gen.forEach_ofExcept, h.ask]
  show Gen.forEach _ _ _ = _
  rw [Gen.forEach_bind, Gen.forEach_say]
  show Gen.forEach _ _ _ = _
  by_cases hyes : SaysYes lower answer
  · rw [if_pos hyes, if_pos hyes, Gen.forEach_yield]
    rfl
  · rw [if_neg hyes, if_neg hyes]
    rfl

/-- A round with answers finishes iff its record is complete where it has to be. -/
theorem Gets.runRound_ok_iff (h : Gets s pkg.projectName algorithm i v record answer) :
    (runRound s lower pkg algorithm (v, i) []).2 = .ok () ↔
      (SaysYes lower answer → record.Complete) := by
  rw [runRound_eq h]
  by_cases hyes : SaysYes lower answer
  · rw [if_pos hyes, reportVuln_writes pkg ⟨i, record⟩]
    show (reportVuln pkg ⟨i, record⟩ []).2 = _ ↔ _
    rw [reportVuln_ok_iff]
    exact ⟨fun hc _ => hc, fun hc => hc hyes⟩
  · rw [if_neg hyes]
    exact iff_of_true rfl fun hyes' => absurd hyes' hyes

/-- Nothing else is raised. -/
theorem Gets.runRound_ends (lower : Text → Text)
    (h : Gets s pkg.projectName algorithm i v record answer) :
    (runRound s lower pkg algorithm (v, i) []).2 = .ok () ∨
      (runRound s lower pkg algorithm (v, i) []).2 = .error notIterable := by
  rw [runRound_eq h]
  by_cases hyes : SaysYes lower answer
  · rw [if_pos hyes, reportVuln_writes pkg ⟨i, record⟩]
    exact reportVuln_ends pkg ⟨i, record⟩
  · rw [if_neg hyes]
    exact .inl rfl

/-- Reports of a round are about its record, and only on a yes. -/
theorem of_mem_runRound {report : Report}
    (hgets : Gets s pkg.projectName algorithm i v record answer)
    (h : Event.affected round report ∈ (runRound s lower pkg algorithm (v, i) []).1) :
    round = i ∧ SaysYes lower answer ∧ record.Backs pkg report := by
  rw [runRound_eq hgets] at h
  by_cases hyes : SaysYes lower answer
  · rw [if_pos hyes, reportVuln_writes pkg ⟨i, record⟩] at h
    have hmem : Event.affected round report ∈ (reportVuln pkg ⟨i, record⟩ []).1 := by
      simpa using h
    obtain ⟨hround, hentry⟩ := of_mem_reportVuln hmem
    exact ⟨hround, hyes, hentry⟩
  · rw [if_neg hyes] at h
    simp at h

theorem reported_runRound {entry : Affected}
    (h : Gets s pkg.projectName algorithm i v record answer)
    (hyes : SaysYes lower answer) (hc : record.Complete) (hmem : entry ∈ record.entries)
    (hlists : entry.Lists pkg.version) :
    Reported (runRound s lower pkg algorithm (v, i) []).1 i pkg.projectName := by
  obtain ⟨report, hreport, hname⟩ := reported_of_entry pkg ⟨i, record⟩ hc hmem hlists
  refine ⟨report, ?_, hname⟩
  rw [runRound_eq h, if_pos hyes, reportVuln_writes pkg ⟨i, record⟩]
  exact List.mem_append_right _ hreport

end OneRound

/-! ## One package -/

/-- The services answer: the query lists `vulns`, the record of round `i` is `record i`, and the
model says `answer i` to it. -/
structure Answers (s : Services) (name : Text) (vulns : List VulnRef) (record : Nat → Record)
    (answer : Nat → Text) : Prop where
  listed : Listed s name vulns
  rounds : ∀ i v, vulns[i]? = some v → Gets s name (txt "RSA") i v (record i) (answer i)

section OnePackage

variable {vulns : List VulnRef} {record : Nat → Record} {answer : Nat → Text} {v : VulnRef}
  {i : Nat}

/-- Every round of the loop is a round with answers. -/
theorem Answers.of_mem_zipIdx {name : Text} (h : Answers s name vulns record answer)
    (hmem : (v, i) ∈ vulns.zipIdx) :
    i < vulns.length ∧ Gets s name (txt "RSA") i v (record i) (answer i) := by
  have hv : vulns[i]? = some v := List.mem_zipIdx_iff_getElem?.mp hmem
  exact ⟨(List.getElem?_eq_some_iff.mp hv).1, h.rounds i v hv⟩

theorem mem_zipIdx_of_lt (hi : i < vulns.length) : (vulns[i], i) ∈ vulns.zipIdx :=
  List.mem_zipIdx_iff_getElem?.mpr (List.getElem?_eq_getElem hi)

/-- **Checking a package is its rounds, one after the other**, up to the first that raises. -/
theorem checkPackage_eq (h : Listed s pkg.projectName vulns) :
    checkPackage s lower pkg [] =
      (.line (txt "\nChecking package " ++ pkg.projectName) ::
        (reached (fun v => (runRound s lower pkg (txt "RSA") v []).2) vulns.zipIdx).flatMap
          fun v => (runRound s lower pkg (txt "RSA") v []).1,
        firstError (fun v => (runRound s lower pkg (txt "RSA") v []).2) vulns.zipIdx) := by
  unfold checkPackage
  rw [init_eq_ok_iff.mpr ⟨vulns, h, rfl⟩]
  show Gen.forEach (reporter pkg) (Gen.each _ _) _ = _
  rw [Gen.forEach_each,
    forList_of_writes fun v _ => checkVuln_writes s lower pkg (txt "RSA") v]
  rfl

/-- The check of a package finishes iff every record the model says yes to is complete. -/
theorem checkPackage_ok_iff (lower : Text → Text)
    (h : Answers s pkg.projectName vulns record answer) :
    (checkPackage s lower pkg []).2 = .ok () ↔
      ∀ i < vulns.length, SaysYes lower (answer i) → (record i).Complete := by
  rw [checkPackage_eq h.listed]
  show firstError _ _ = _ ↔ _
  rw [firstError_eq_ok_iff]
  constructor
  · intro hok i hi
    have hmem := mem_zipIdx_of_lt hi
    obtain ⟨-, hgets⟩ := h.of_mem_zipIdx hmem
    exact hgets.runRound_ok_iff.mp (hok _ hmem)
  · rintro hall ⟨v, i⟩ hmem
    obtain ⟨hi, hgets⟩ := h.of_mem_zipIdx hmem
    exact hgets.runRound_ok_iff.mpr (hall i hi)

theorem checkPackage_ends (lower : Text → Text)
    (h : Answers s pkg.projectName vulns record answer) :
    (checkPackage s lower pkg []).2 = .ok () ∨
      (checkPackage s lower pkg []).2 = .error notIterable := by
  rw [checkPackage_eq h.listed]
  apply firstError_cases
  rintro ⟨v, i⟩ hmem
  obtain ⟨-, hgets⟩ := h.of_mem_zipIdx hmem
  exact hgets.runRound_ends lower

/-- A record that lacks `versions` and is answered yes ends the check, whatever comes after it. -/
theorem checkPackage_raises (hlisted : Listed s pkg.projectName vulns) (hi : i < vulns.length)
    (hrounds : ∀ j ≤ i, ∀ v, vulns[j]? = some v →
      Gets s pkg.projectName (txt "RSA") j v (record j) (answer j))
    (hyes : SaysYes lower (answer i)) (hbad : ¬ (record i).Complete) :
    (checkPackage s lower pkg []).2 = .error notIterable := by
  have hsplit : vulns.zipIdx = (vulns.take (i + 1)).zipIdx ++
      (vulns.drop (i + 1)).zipIdx (0 + (vulns.take (i + 1)).length) := by
    rw [← List.zipIdx_append, List.take_append_drop]
  -- the rounds up to this one
  have hmem : ∀ v j, (v, j) ∈ (vulns.take (i + 1)).zipIdx ↔ j ≤ i ∧ vulns[j]? = some v := by
    intro v j
    rw [List.mem_zipIdx_iff_getElem?, List.getElem?_take, ← Nat.lt_succ_iff]
    split <;> simp [*]
  have hround : (vulns[i], i) ∈ (vulns.take (i + 1)).zipIdx :=
    (hmem _ i).mpr ⟨le_rfl, List.getElem?_eq_getElem hi⟩
  rw [checkPackage_eq hlisted, hsplit]
  refine firstError_append_of_error ?_ hround ?_ _
  · rintro ⟨v, j⟩ hv
    obtain ⟨hj, hv⟩ := (hmem v j).mp hv
    exact (hrounds j hj v hv).runRound_ends lower
  · intro hok
    have hgets := hrounds i le_rfl _ (List.getElem?_eq_getElem hi)
    exact hbad (hgets.runRound_ok_iff.mp hok hyes)

/-- **What is reported, even by a run that raises, was answered yes and lists the version.** -/
theorem reported_sound (h : Answers s pkg.projectName vulns record answer)
    (hrep : Reported (checkPackage s lower pkg []).1 i pkg.projectName) :
    i < vulns.length ∧ SaysYes lower (answer i) ∧
      ∃ entry ∈ (record i).entries, entry.Lists pkg.version := by
  obtain ⟨report, hmem, -⟩ := hrep
  rw [checkPackage_eq h.listed, List.mem_cons] at hmem
  rcases hmem with hline | hmem
  · cases hline
  · obtain ⟨⟨v, j⟩, hreached, hev⟩ := List.mem_flatMap.mp hmem
    obtain ⟨hj, hgets⟩ := h.of_mem_zipIdx (reached_subset _ _ hreached)
    obtain ⟨rfl, hyes, entry, hmem, versions, hversions, hlisted, -⟩ :=
      of_mem_runRound hgets hev
    exact ⟨hj, hyes, entry, hmem, versions, hversions, hlisted⟩

/-- A run that finishes reports all of them. -/
theorem reported_complete (h : Answers s pkg.projectName vulns record answer)
    (hok : (checkPackage s lower pkg []).2 = .ok ()) (hi : i < vulns.length)
    (hyes : SaysYes lower (answer i)) {entry : Affected} (hmem : entry ∈ (record i).entries)
    (hlists : entry.Lists pkg.version) :
    Reported (checkPackage s lower pkg []).1 i pkg.projectName := by
  have hc := (checkPackage_ok_iff _ h).mp hok i hi hyes
  have hround := mem_zipIdx_of_lt hi
  obtain ⟨-, hgets⟩ := h.of_mem_zipIdx hround
  obtain ⟨report, hrep, hname⟩ := reported_runRound hgets hyes hc hmem hlists
  refine ⟨report, ?_, hname⟩
  rw [checkPackage_eq h.listed] at hok ⊢
  -- no round raises, so all of them are in the output
  rw [reached_of_ok (firstError_eq_ok_iff.mp hok)]
  apply List.mem_cons_of_mem
  apply List.mem_flatMap.mpr
  exact ⟨(vulns[i], i), hround, hrep⟩

/-- **When the report is right.** The check finishes and reports the package for exactly those
records that the model says yes to and that name this package with this version, iff in every
record it says yes to all entries have `versions`, and an entry that lists this version for some
package is matched by one that lists it for this package. -/
theorem report_correct_iff (s : Services) (lower : Text → Text) (pkg : Package)
    (vulns : List VulnRef) (record : Nat → Record) (answer : Nat → Text)
    (h : Answers s pkg.projectName vulns record answer) :
    ((checkPackage s lower pkg []).2 = .ok () ∧
        ∀ i < vulns.length, Reported (checkPackage s lower pkg []).1 i pkg.projectName ↔
          SaysYes lower (answer i) ∧ (record i).Affects pkg) ↔
      ∀ i < vulns.length, SaysYes lower (answer i) →
        (∀ entry ∈ (record i).entries, entry.versions ≠ none) ∧
        ((∃ entry ∈ (record i).entries, entry.Lists pkg.version) → (record i).Affects pkg) := by
  constructor
  · rintro ⟨hok, hreports⟩ i hi hyes
    refine ⟨(checkPackage_ok_iff _ h).mp hok i hi hyes, ?_⟩
    rintro ⟨entry, hmem, hlists⟩
    exact ((hreports i hi).mp (reported_complete h hok hi hyes hmem hlists)).2
  · intro hall
    have hok : (checkPackage s lower pkg []).2 = .ok () :=
      (checkPackage_ok_iff _ h).mpr fun i hi hyes => (hall i hi hyes).1
    refine ⟨hok, ?_⟩
    intro i hi
    constructor
    · intro hrep
      obtain ⟨-, hyes, hentry⟩ := reported_sound h hrep
      exact ⟨hyes, (hall i hi hyes).2 hentry⟩
    · rintro ⟨hyes, entry, hmem, -, hlists⟩
      exact reported_complete h hok hi hyes hmem hlists

/-- Version `1` of a package `p`. -/
def demoPackage : Package := ⟨['p'], ['1']⟩

/-- One vulnerability with these entries, and a model that says yes. -/
def demoServices (entries : List Affected) : Services where
  post _ _ := .ok ⟨200, .ok (some [⟨none⟩])⟩
  get _ _ := .ok ⟨200, .ok ⟨none, none, none, some entries⟩⟩
  generate _ _ _ := .ok (some ['Y', 'e', 's', '\n'])

theorem demoServices_answers (entries : List Affected) :
    Answers (demoServices entries) demoPackage.projectName [⟨none⟩]
      (fun _ => ⟨none, none, none, some entries⟩) (fun _ => ['Y', 'e', 's', '\n']) where
  listed := ⟨some [⟨none⟩], rfl, rfl⟩
  rounds := fun _ _ _ => ⟨rfl, rfl⟩

theorem demo_saysYes : SaysYes (List.map Char.toLower) ['Y', 'e', 's', '\n'] := by
  show strip _ = ['y', 'e', 's']
  decide

theorem report_correct_iff_demo :
    Reported (checkPackage (demoServices [⟨some ['p'], some [['1']]⟩]) (List.map Char.toLower)
      demoPackage []).1 0 demoPackage.projectName := by
  have haffects : Record.Affects ⟨none, none, none, some [⟨some ['p'], some [['1']]⟩]⟩
      demoPackage :=
    ⟨_, List.mem_singleton_self _, rfl, _, rfl, List.mem_singleton_self _⟩
  have hiff := report_correct_iff _ (List.map Char.toLower) demoPackage _ _ _
    (demoServices_answers [⟨some ['p'], some [['1']]⟩])
  obtain ⟨-, hreports⟩ := hiff.mpr fun i _ _ => ⟨by simp [Record.entries], fun _ => haffects⟩
  exact (hreports 0 (by decide)).mpr ⟨demo_saysYes, haffects⟩

/-- A record about version `1` of another package is reported for `p`; and a record that does list
version `1` of `p`, behind an entry without `versions`, raises. -/
theorem report_wrong_package_and_missing_versions :
    (Reported (checkPackage (demoServices [⟨some ['q'], some [['1']]⟩]) (List.map Char.toLower)
          demoPackage []).1 0 demoPackage.projectName ∧
        ¬ Record.Affects ⟨none, none, none, some [⟨some ['q'], some [['1']]⟩]⟩ demoPackage) ∧
      (checkPackage (demoServices [⟨some ['p'], none⟩, ⟨some ['p'], some [['1']]⟩])
          (List.map Char.toLower) demoPackage []).2 = .error notIterable ∧
        Record.Affects ⟨none, none, none, some [⟨some ['p'], none⟩, ⟨some ['p'], some [['1']]⟩]⟩
          demoPackage := by
  refine ⟨⟨?_, ?_⟩, ?_, ?_⟩
  · have h := demoServices_answers [⟨some ['q'], some [['1']]⟩]
    have hok := (checkPackage_ok_iff (List.map Char.toLower) h).mpr
      fun _ _ _ => by simp [Record.Complete, Record.entries]
    exact reported_complete h hok (by decide) demo_saysYes (List.mem_singleton_self _)
      ⟨_, rfl, List.mem_singleton_self _⟩
  · simp [Record.Affects, Record.entries, demoPackage]
  · have h := demoServices_answers [⟨some ['p'], none⟩, ⟨some ['p'], some [['1']]⟩]
    rcases checkPackage_ends (List.map Char.toLower) h with hok | herr
    · have hc := (checkPackage_ok_iff _ h).mp hok 0 (by decide) demo_saysYes
      exact absurd rfl (hc _ List.mem_cons_self)
    · exact herr
  · exact ⟨_, List.mem_cons_of_mem _ (List.mem_singleton_self _), rfl, _, rfl,
      List.mem_singleton_self _⟩

end OnePackage

/-! ## The program -/

section Program

theorem main_eq (services : Package → Services) (lower : Text → Text) (workingSet : List Package) :
    main services lower workingSet =
      ((reached (fun pkg => (checkPackage (services pkg) lower pkg []).2) workingSet).flatMap
          fun pkg => (checkPackage (services pkg) lower pkg []).1,
        firstError (fun pkg => (checkPackage (services pkg) lower pkg []).2) workingSet) := by
  unfold main
  rw [forList_of_writes fun pkg _ => checkPackage_writes (services pkg) lower pkg]
  rfl

/-- **One incomplete record ends the program**, if the model says yes to it: the packages after this
one are not checked at all, so the output says nothing about them, whatever the services know. They
have to answer up to this record only. -/
theorem main_stops (services : Package → Services) (lower : Text → Text)
    (before after : List Package) (pkg : Package) (vulns : List VulnRef) (record : Nat → Record)
    (answer : Nat → Text)
    (hbefore : ∀ q ∈ before, (checkPackage (services q) lower q []).2 = .ok ())
    (hlisted : Listed (services pkg) pkg.projectName vulns) (i : Nat) (hi : i < vulns.length)
    (hrounds : ∀ j ≤ i, ∀ v, vulns[j]? = some v →
      Gets (services pkg) pkg.projectName (txt "RSA") j v (record j) (answer j))
    (hyes : SaysYes lower (answer i)) (hbad : ¬ (record i).Complete) :
    main services lower (before ++ pkg :: after) =
      ((before ++ [pkg]).flatMap fun q => (checkPackage (services q) lower q []).1,
        .error notIterable) := by
  have herr := checkPackage_raises hlisted hi hrounds hyes hbad
  obtain ⟨hreached, hfirst⟩ := reached_of_error after hbefore herr
  rw [main_eq, hreached, hfirst]

/-- Nothing is said about the second package. -/
theorem main_stops_demo :
    main (fun _ => demoServices [⟨some ['p'], none⟩]) (List.map Char.toLower)
        [demoPackage, ⟨['q'], ['1']⟩] =
      ((checkPackage (demoServices [⟨some ['p'], none⟩]) (List.map Char.toLower) demoPackage []).1,
        .error notIterable) := by
  have hbad : ¬ Record.Complete ⟨none, none, none, some [⟨some ['p'], none⟩]⟩ :=
    fun h => h _ List.mem_cons_self rfl
  have h := main_stops (fun _ => demoServices [⟨some ['p'], none⟩]) (List.map Char.toLower) []
    [⟨['q'], ['1']⟩] demoPackage _ _ _ (fun _ hq => absurd hq List.not_mem_nil) ⟨some [⟨none⟩], rfl, rfl⟩ 0
    Nat.zero_lt_one (fun j _ v hv => (demoServices_answers [⟨some ['p'], none⟩]).rounds j v hv)
    demo_saysYes hbad
  rw [List.nil_append, List.nil_append, List.flatMap_singleton] at h
  exact h

end Program

end CryptoScan.VulnChecker
