/-
What a run of the program says on the standard output: one line with a status, and at most one block
of further output.  Only a run that has decided its problem and then cannot write its results says
two: it reports the verdict first and the error behind it.
-/
import Tableau.CommandLine.Transcript

namespace Tableau

/-- The limit that an invocation sets to a search, in nanoseconds. -/
inductive Invocation.HasLimit (inv : Invocation) : Option Nat → Prop where
  | unlimited : inv.maxRuntime = none → HasLimit inv none
  | written {text : String} {seconds : Seconds} {limit : Option Nat} :
      inv.maxRuntime = some text → Seconds.parse? text = some seconds →
      Program.maxRuntime seconds.budget = .ok limit → HasLimit inv limit

/-- What is written is a number of seconds. -/
theorem Invocation.HasLimit.exists_seconds {inv : Invocation} {limit : Option Nat}
    (h : inv.HasLimit limit) :
    ∃ seconds, inv.maxRuntime.mapM Seconds.parse? = some seconds ∧
      Program.maxRuntime ((seconds.map Seconds.budget).getD .unlimited) = .ok limit := by
  cases h with
  | unlimited hnone => exact ⟨none, by rw [hnone]; rfl, rfl⟩
  | @written text seconds limit hsome hparse hlimit =>
      exact ⟨some seconds, by simp [hsome, hparse], hlimit⟩

theorem Status.isSuccess_ofReadError (e : ReadError) :
    (Status.ofReadError e).isSuccess = false := by
  rw [Status.ofReadError]
  split <;> rfl

namespace Scenario

open Program

variable {α β ε : Type} {scenario : Scenario} {limit : Option Nat} {fuel : Nat}

/-- The search for a proof of the problem in the file ends. -/
inductive Searches (scenario : Scenario) (limit : Option Nat) (fuel : Nat) (p : Prover)
    (result : Except Defect Verdict) : Prop where
  | ends {text : String} {problem : Problem} {lexicon : Lexicon} :
      scenario.readProblem = .ok text → Problem.read {} text = (.ok problem, lexicon) →
      (Prover.start lexicon problem.premises problem.goals
        { verbose := scenario.invocation.verbose, maxRuntime := limit }).prove? fuel =
          some (p, result) →
      Searches scenario limit fuel p result

/-- The status that a run arrives at before it writes its results. -/
inductive Concludes (scenario : Scenario) (limit : Option Nat) (fuel : Nat) : Status → Prop where
  | inaccessible {message : String} :
      scenario.readProblem = .error message → Concludes scenario limit fuel .osError
  | unreadable {text : String} {e : ReadError} {lexicon : Lexicon} :
      scenario.readProblem = .ok text → Problem.read {} text = (.error e, lexicon) →
      Concludes scenario limit fuel (.ofReadError e)
  | defective {p : Prover} {defect : Defect} :
      scenario.Searches limit fuel p (.error defect) → Concludes scenario limit fuel .error
  | unrecorded {p : Prover} {verdict : Verdict} :
      scenario.Searches limit fuel p (.ok verdict) → scenario.statistics = some .missing →
      Concludes scenario limit fuel .osError
  | decided {p : Prover} {verdict : Verdict} :
      scenario.Searches limit fuel p (.ok verdict) → scenario.statistics ≠ some .missing →
      Concludes scenario limit fuel (.ofVerdict verdict)

/-! Rehearsals by the text that they add to the standard output. -/

/-- Whenever a rehearsal has a result, it has added a text that suits the result. -/
def Writes (rehearsal : Rehearsal α) (post : α → String → Prop) : Prop :=
  ∀ before a after, rehearsal.run.run before = (some a, after) →
    ∃ text, after.stdout = before.stdout ++ text ∧ post a text

section Rules

variable {rehearsal : Rehearsal α} {next : α → Rehearsal β} {middle : α → String → Prop}
  {post : β → String → Prop}

theorem Writes.imp {middle' : α → String → Prop} (h : Writes rehearsal middle)
    (himp : ∀ a text, middle a text → middle' a text) : Writes rehearsal middle' := by
  intro before a after hrun
  obtain ⟨text, htext, hmiddle⟩ := h before a after hrun
  exact ⟨text, htext, himp a text hmiddle⟩

theorem writes_pure {b : β} (h : post b "") : Writes (pure b) post := by
  rintro before _ _ ⟨⟩
  exact ⟨"", by simp, h⟩

theorem Writes.bind (h : Writes rehearsal middle)
    (hnext : ∀ a text, middle a text → Writes (next a) fun b text' => post b (text ++ text')) :
    Writes (rehearsal >>= next) post := by
  intro before b after hrun
  rw [OptionT.run_bind, Option.elimM, StateT.run_bind] at hrun
  obtain ⟨a?, between, hfirst⟩ : ∃ a? between, rehearsal.run.run before = (a?, between) :=
    ⟨_, _, rfl⟩
  rw [hfirst] at hrun
  cases a? with
  | none => cases hrun
  | some a =>
      obtain ⟨text, htext, hmiddle⟩ := h before a between hfirst
      obtain ⟨text', htext', hpost⟩ := hnext a text hmiddle between b after hrun
      exact ⟨text ++ text', by rw [htext', htext, String.append_assoc], hpost⟩

/-- A change of the transcript writes what it adds to the standard output. -/
theorem writes_modify {change : Transcript → Transcript} {text : String}
    (h : ∀ t, (change t).stdout = t.stdout ++ text) :
    Writes (modify change : Rehearsal PUnit) fun _ written => written = text := by
  rintro before _ _ ⟨⟩
  exact ⟨text, h before, rfl⟩

end Rules

section Aborting

variable {attempted : ExceptT Abort Rehearsal α} {next : α → ExceptT Abort Rehearsal β}
  {middle : Except Abort α → String → Prop} {post : Except Abort β → String → Prop}

/-- One step after the other, unless the first one ends the run. -/
theorem Writes.andThen (h : Writes attempted.run middle)
    (herror : ∀ reason text, middle (.error reason) text → post (.error reason) text)
    (hok : ∀ a text, middle (.ok a) text →
      Writes (next a).run fun result text' => post result (text ++ text')) :
    Writes (attempted >>= next).run post := by
  rw [ExceptT.run_bind]
  refine h.bind fun result text hmiddle => ?_
  cases result with
  | error reason => exact writes_pure (by simpa using herror reason text hmiddle)
  | ok a => exact hok a text hmiddle

theorem writes_orAbort {operation : Rehearsal (Except ε α)} {reason : ε → Abort}
    (h : Writes operation fun result text => middle (result.mapError reason) text) :
    Writes (orAbort reason operation).run middle := by
  refine Writes.bind h fun result text hmiddle => writes_pure ?_
  simpa using hmiddle

/-- An operation whose result is gone on with, or is a reason to end. -/
theorem Writes.orAbort_andThen {operation : Rehearsal (Except ε α)} {reason : ε → Abort}
    {done : Except ε α → String → Prop} (h : Writes operation done)
    (herror : ∀ e text, done (.error e) text → post (.error (reason e)) text)
    (hok : ∀ a text, done (.ok a) text →
      Writes (next a).run fun result text' => post result (text ++ text')) :
    Writes (orAbort reason operation >>= next).run post := by
  have habort : Writes (orAbort reason operation).run
      fun result text => ∃ result', result = result'.mapError reason ∧ done result' text :=
    writes_orAbort (h.imp fun result _ hdone => ⟨result, rfl, hdone⟩)
  refine habort.andThen ?_ ?_
  · rintro _ text ⟨result, hresult, hdone⟩
    cases result <;> cases hresult
    exact herror _ text hdone
  · rintro _ text ⟨result, hresult, hdone⟩
    cases result <;> cases hresult
    exact hok _ text hdone

/-- The same for a result that is there already. -/
theorem writes_orAbort_pure {result : Except ε α} {reason : ε → Abort}
    (herror : ∀ e, result = .error e → post (.error (reason e)) "")
    (hok : ∀ a, result = .ok a → Writes (next a).run post) :
    Writes (orAbort reason (pure result) >>= next).run post := by
  have h : Writes (pure result) fun result' text => result = result' ∧ text = "" :=
    writes_pure ⟨rfl, rfl⟩
  refine h.orAbort_andThen ?_ ?_
  · rintro e _ ⟨hresult, rfl⟩
    exact herror e hresult
  · rintro a _ ⟨hresult, rfl⟩
    simpa using hok a hresult

/-- A step that cannot end the run. -/
theorem Writes.lift_andThen {rehearsal : Rehearsal α} {middle : α → String → Prop}
    (h : Writes rehearsal middle)
    (hok : ∀ a text, middle a text →
      Writes (next a).run fun result text' => post result (text ++ text')) :
    Writes (liftM rehearsal >>= next).run post := by
  have hlift : Writes (liftM rehearsal : ExceptT Abort Rehearsal α).run
      fun result text => ∃ a, result = .ok a ∧ middle a text := by
    change Writes (Except.ok <$> rehearsal) _
    rw [map_eq_pure_bind]
    refine h.bind fun a text hmiddle => writes_pure ⟨a, rfl, ?_⟩
    simpa using hmiddle
  refine hlift.andThen ?_ ?_
  · rintro reason text ⟨_, ⟨⟩, -⟩
  · rintro _ text ⟨_, ⟨⟩, hmiddle⟩
    exact hok _ text hmiddle

end Aborting

/-! What the program does to its surroundings. -/

/-- Nothing, or one block of further output. -/
def IsBlock (written : String) : Prop := written = "" ∨ ∃ text, written = Status.outputBlock text

theorem writes_print (text : String) :
    Writes ((scenario.host fuel).print text) fun _ written => written = text :=
  writes_modify fun _ => rfl

theorem writes_complain (message : String) :
    Writes ((scenario.host fuel).complain message) fun _ written => written = "" :=
  writes_pure rfl

theorem writes_prove (start : Prover) :
    Writes ((scenario.host fuel).prove start)
      fun answer written => written = "" ∧ start.prove? fuel = some answer := by
  rintro before answer _ hrun
  obtain ⟨hanswer, rfl⟩ := Prod.mk.inj hrun
  exact ⟨"", by simp, rfl, hanswer⟩

theorem writes_write {target : Target} {change : Transcript → Transcript}
    (h : ∀ t, (change t).stdout = t.stdout) :
    Writes (write target change) fun result written => written = "" ∧
      ((target = .missing ∧ result = .error noSuchFile) ∨
        (target ≠ .missing ∧ result = .ok ())) := by
  cases target with
  | missing => exact writes_pure ⟨rfl, .inl ⟨rfl, rfl⟩⟩
  | writable =>
      have hchange : Writes (modify change : Rehearsal PUnit) fun _ written => written = "" :=
        writes_modify fun t => by simp [h]
      refine hchange.bind ?_
      rintro _ _ rfl
      exact writes_pure ⟨rfl, .inr ⟨by simp, rfl⟩⟩

theorem writes_statistics (stats : Statistics) :
    Writes (Program.statistics (scenario.host fuel) stats) fun result written => written = "" ∧
      ((scenario.statistics = some .missing ∧ result = .error noSuchFile) ∨
        (scenario.statistics ≠ some .missing ∧ result = .ok ())) := by
  rw [Program.statistics]
  cases hstatistics : scenario.statistics with
  | none =>
      simp only [host, hstatistics, Option.map_none]
      exact writes_pure ⟨rfl, .inr ⟨by simp, rfl⟩⟩
  | some target =>
      simp only [host, hstatistics, Option.map_some, ne_eq, Option.some.injEq]
      exact writes_write fun _ => rfl

/-- Results go to their file, or into a block. -/
theorem writes_output (text : String) :
    Writes (Program.output (scenario.host fuel) text) fun result written =>
      (scenario.output = some .missing ∧ result = .error noSuchFile ∧ written = "") ∨
      (scenario.output ≠ some .missing ∧ result = .ok () ∧ IsBlock written) := by
  rw [Program.output]
  cases houtput : scenario.output with
  | none =>
      simp only [host, houtput, Option.map_none]
      have hprint := @writes_print scenario fuel (Status.outputBlock text)
      refine hprint.bind ?_
      rintro _ _ rfl
      exact writes_pure (.inr ⟨by simp, rfl, .inr ⟨text, by simp⟩⟩)
  | some target =>
      simp only [host, houtput, Option.map_some, ne_eq, Option.some.injEq]
      refine Writes.imp (writes_write fun _ => rfl) ?_
      rintro result _ ⟨rfl, ⟨hmissing, hresult⟩ | ⟨hwritable, hresult⟩⟩
      · exact .inl ⟨hmissing, hresult, rfl⟩
      · exact .inr ⟨hwritable, hresult, .inl rfl⟩

/-- How an attempt ends, and what it has written. -/
inductive Attempts (scenario : Scenario) (limit : Option Nat) (fuel : Nat) :
    Except Abort Unit → String → Prop where
  | reported {status : Status} {block : String} :
      scenario.Concludes limit fuel status → status.isSuccess = true →
      scenario.output ≠ some .missing → IsBlock block →
      Attempts scenario limit fuel (.ok ()) (status.line ++ block)
  | failed {status : Status} {detail : Option String} :
      scenario.Concludes limit fuel status → status.isSuccess = false →
      Attempts scenario limit fuel (.error (.failure status detail)) ""
  | unwritten {status : Status} {message : String} :
      scenario.Concludes limit fuel status → status.isSuccess = true →
      scenario.output = some .missing →
      Attempts scenario limit fuel (.error (.os message)) status.line

theorem writes_attempt {budget : Budget} (hbudget : maxRuntime budget = .ok limit) :
    Writes (attempt (scenario.host fuel) scenario.invocation.verbose budget).run
      (scenario.Attempts limit fuel) := by
  rw [attempt]
  refine writes_orAbort_pure ?_ ?_
  · intro message hfile
    exact .failed (.inaccessible hfile) rfl
  intro text hfile
  obtain ⟨result, lexicon, hread⟩ : ∃ result lexicon, Problem.read {} text = (result, lexicon) :=
    ⟨_, _, rfl⟩
  rw [hread]
  refine writes_orAbort_pure ?_ ?_
  · rintro e rfl
    exact .failed (.unreadable hfile hread) (Status.isSuccess_ofReadError e)
  rintro problem rfl
  refine writes_orAbort_pure ?_ ?_
  · rintro reason hreason
    rw [hbudget] at hreason
    contradiction
  intro limit' hlimit'
  obtain ⟨⟩ := hbudget.symm.trans hlimit'
  refine (writes_prove _).lift_andThen ?_
  rintro ⟨p, result⟩ _ ⟨rfl, hprove⟩
  simp only [String.empty_append]
  have hsearch : scenario.Searches limit fuel p result := .ends hfile hread hprove
  refine writes_orAbort_pure ?_ ?_
  · rintro defect rfl
    exact .failed (.defective hsearch) rfl
  rintro verdict rfl
  refine (writes_statistics _).orAbort_andThen ?_ ?_
  · rintro message _ ⟨rfl, ⟨hmissing, -⟩ | ⟨-, ⟨⟩⟩⟩
    exact .failed (.unrecorded hsearch hmissing) rfl
  rintro _ _ ⟨rfl, ⟨-, ⟨⟩⟩ | ⟨hwritten, -⟩⟩
  simp only [String.empty_append]
  have hconcludes := Concludes.decided hsearch hwritten
  cases hsuccess : (Status.ofVerdict verdict).isSuccess with
  | false => exact writes_pure (.failed hconcludes hsuccess)
  | true =>
      refine (writes_print _).lift_andThen ?_
      rintro _ _ rfl
      refine writes_orAbort ((writes_output _).imp ?_)
      rintro _ written (⟨hmissing, rfl, rfl⟩ | ⟨hwritable, rfl, hblock⟩)
      · rw [String.append_empty]
        exact .unwritten hconcludes hsuccess hmissing
      · exact .reported hconcludes hsuccess hwritable hblock

/-- How a run ends, by the status that it arrives at. -/
def Reports (scenario : Scenario) (limit : Option Nat) (fuel : Nat) (code : UInt32)
    (written : String) : Prop :=
  ∃ status block, scenario.Concludes limit fuel status ∧ IsBlock block ∧
    if status.isSuccess = true ∧ scenario.output = some .missing then
      written = status.line ++ Status.osError.line ∧ code = 1
    else written = status.line ++ block ∧ (code = 0 ↔ status.isSuccess = true)

/-- The report of a failure comes behind what has been written before. -/
theorem Attempts.reports {status : Status} {detail : Option String} {before block : String}
    (h : scenario.Attempts limit fuel (.error (.failure status detail)) before)
    (hblock : IsBlock block) (hmissing : scenario.output = some .missing → block = "") :
    scenario.Reports limit fuel 1 (before ++ (status.line ++ block)) := by
  cases h with
  | failed hconcludes hfailure =>
      refine ⟨status, block, hconcludes, hblock, ?_⟩
      rw [if_neg (by simp [hfailure])]
      simp [hfailure]
  | @unwritten status' message hconcludes hsuccess houtput =>
      refine ⟨status', block, hconcludes, hblock, ?_⟩
      rw [if_pos ⟨hsuccess, houtput⟩, hmissing houtput, String.append_empty]
      exact ⟨rfl, rfl⟩

theorem writes_run (hlimit : scenario.invocation.HasLimit limit) :
    Writes (Program.run (scenario.host fuel) scenario.invocation)
      (scenario.Reports limit fuel) := by
  obtain ⟨seconds, hseconds, hbudget⟩ := hlimit.exists_seconds
  rw [Program.run, hseconds]
  refine (writes_attempt hbudget).bind ?_
  rintro (⟨status, detail⟩ | _ | _) before hattempts
  · refine (writes_print _).bind ?_
    rintro _ _ rfl
    cases detail with
    | none => exact writes_pure (hattempts.reports (.inl rfl) fun _ => rfl)
    | some text =>
        refine (writes_output text).bind ?_
        rintro _ block (⟨-, rfl, rfl⟩ | ⟨hwritable, rfl, hblock⟩)
        · refine (writes_complain _).bind ?_
          rintro _ _ rfl
          exact writes_pure (hattempts.reports (.inl rfl) fun _ => rfl)
        · refine writes_pure ?_
          simpa using hattempts.reports hblock fun hmissing => absurd hmissing hwritable
  · cases hattempts
  · cases hattempts with
    | @reported status block hconcludes hsuccess hwritable hblock =>
        refine writes_pure ⟨status, block, hconcludes, hblock, ?_⟩
        rw [if_neg fun h => hwritable h.2]
        simp [hsuccess]

theorem run_eq_some_iff {code : UInt32} {transcript : Transcript} :
    scenario.run fuel = some (code, transcript) ↔
      (Program.run (scenario.host fuel) scenario.invocation).run.run {} =
        (some code, transcript) := by
  rw [Scenario.run]
  generalize (Program.run (scenario.host fuel) scenario.invocation).run.run {} = ended
  obtain ⟨code?, transcript'⟩ := ended
  cases code? with
  | none => constructor <;> rintro ⟨⟩
  | some code' => constructor <;> rintro ⟨⟩ <;> rfl

/-- Every run that ends reports one status, with at most one block of further output, and exits
with zero if and only if the status is a success.  Runs that cannot write the results of a success
are the exception: they report it, and behind it an error of the operating system. -/
theorem reports_of_run {code : UInt32} {transcript : Transcript}
    (hlimit : scenario.invocation.HasLimit limit)
    (hrun : scenario.run fuel = some (code, transcript)) :
    scenario.Reports limit fuel code transcript.stdout := by
  obtain ⟨text, htext, hreports⟩ := writes_run hlimit {} code transcript (run_eq_some_iff.mp hrun)
  have hstdout : transcript.stdout = text := by simpa using htext
  rwa [hstdout]

/-- A problem with a limit of zero seconds, and with a file for its results. -/
theorem reports_of_run_in_no_time :
    ∃ scenario : Scenario, ∃ transcript, scenario.invocation.maxRuntime = some "0" ∧
      scenario.run 20 = some (1, transcript) ∧
      scenario.Reports (some 0) 20 1 transcript.stdout := by
  let scenario : Scenario :=
    { file := some "(goal (or A (not A)))".toUTF8, invocation := { maxRuntime := some "0" },
      output := some .writable }
  have hcode : (scenario.run 20).map (·.1) = some 1 := by decide +kernel
  obtain ⟨⟨code, transcript⟩, hrun, rfl⟩ := Option.map_eq_some_iff.mp hcode
  have hlimit : scenario.invocation.HasLimit (some 0) := by
    have hparse : Seconds.parse? "0" = some (.decimal false 0 0) := by rfl
    exact .written rfl hparse rfl
  exact ⟨scenario, transcript, rfl, hrun, reports_of_run hlimit hrun⟩

theorem take_append {first second : String} {count : Nat} (h : count ≤ first.toList.length) :
    (first ++ second).toList.take count = first.toList.take count := by
  rw [String.toList_append, List.take_append_of_le_length h]

/-- Two statuses are not one with a block: lines that report different statuses differ within their
first characters, and so do those of a status and of a block. -/
theorem line_append_line_ne {status : Status} {block : String} (hblock : IsBlock block) :
    Status.provable.line ++ Status.osError.line ≠ status.line ++ block := by
  intro heq
  have hstatus : status = .provable := by
    have htake := congrArg (·.toList.take 15) heq
    have hlength : 15 ≤ status.line.toList.length := by cases status <;> decide +kernel
    simp only [take_append hlength] at htake
    cases status with
    | provable => rfl
    | _ => exact absurd htake (by decide +kernel)
  have hrest : Status.osError.line.toList = block.toList := by
    have hchars := congrArg String.toList heq
    rw [hstatus, String.toList_append, String.toList_append] at hchars
    exact List.append_cancel_left hchars
  rcases hblock with rfl | ⟨text, rfl⟩
  · exact absurd hrest (by decide +kernel)
  · have hstart : Status.outputBlock text = "% SZS output start\n" ++
        (text ++ "% SZS output end\n") :=
      String.append_assoc ..
    have htake := congrArg (List.take 7) (hrest.trans (congrArg String.toList hstart))
    have hlength : 7 ≤ "% SZS output start\n".toList.length := by decide +kernel
    exact absurd (htake.trans (take_append hlength)) (by decide +kernel)

/-- A theorem whose proof cannot be written is reported with two statuses. -/
theorem exists_two_statuses :
    ∃ (scenario : Scenario) (fuel : Nat) (code : UInt32) (transcript : Transcript),
      scenario.invocation.HasLimit none ∧ scenario.run fuel = some (code, transcript) ∧
      transcript.stdout = Status.provable.line ++ Status.osError.line ∧
      ¬ ∃ (status : Status) (block : String), IsBlock block ∧
        transcript.stdout = status.line ++ block := by
  let scenario : Scenario :=
    { file := some "(goal (or A (not A)))".toUTF8, output := some .missing }
  have hstdout : (scenario.run 20).map (·.2.stdout) =
      some (Status.provable.line ++ Status.osError.line) := by decide +kernel
  obtain ⟨⟨code, transcript⟩, hrun, htwo⟩ := Option.map_eq_some_iff.mp hstdout
  refine ⟨scenario, 20, code, transcript, .unlimited rfl, hrun, htwo, ?_⟩
  rintro ⟨status, block, hblock, hone⟩
  exact line_append_line_ne hblock (htwo.symm.trans hone)

end Scenario

end Tableau
