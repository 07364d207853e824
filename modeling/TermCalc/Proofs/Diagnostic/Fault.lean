import TermCalc.Proofs.Text.Template
import TermCalc.Reporter

/-!
# Reports of faults

A fault is reported with its name and text, which go into a template. A fault that cannot be
reported is replaced by the fault of the template, and nothing is written. Otherwise the handler
goes on as it should, but the name and text are written as they are only if they have no braces.

## Main definitions

* `Fault.announcement f`: what is to be said of a fault
* `Reporter.announced r f words`: the fault is reported in those words

## Main results

* `Reporter.throw_internal`: what comes of an internal diagnostic
* `Reporter.settle_fault`: the fault is reported in some words, or another takes its place
* `Reporter.fault_announced_iff`: the words are the announcement if and only if it has no braces
-/

namespace TermCalc

open Template

/-- What is to be said of a fault. -/
def Fault.announcement (f : Fault) : String :=
  "unknown error: '" ++ f.name ++ ": " ++ f.text ++ "'"

/-- An announcement has the braces of the name and the text. -/
theorem Fault.braceFree_announcement (f : Fault) :
    BraceFree f.announcement.toList ↔ BraceFree f.name.toList ∧ BraceFree f.text.toList := by
  have hfront : BraceFree "unknown error: '".toList := braceFree_of_eq_ofList rfl (by decide)
  have hcolon : BraceFree ": ".toList := braceFree_of_eq_ofList rfl (by decide)
  have hquote : BraceFree "'".toList := braceFree_of_eq_ofList rfl (by decide)
  show BraceFree ("unknown error: '" ++ f.name ++ ": " ++ f.text ++ "'").toList ↔ _
  simp only [braceFree_append, hfront, hcolon, hquote, true_and, and_true]

namespace Reporter

variable {r : Reporter} {d : Diagnostic} {f : Fault}

/-- The fault is reported in those words below the active lines. A fatal reporter then ends the
program, and another one lets the fault go on and forgets the active lines. -/
def announced (r : Reporter) (f : Fault) (words : String) : Settled :=
  let lines := r.active.filterMap fun a => a.shown?.map fun line =>
    "  File '" ++ a.path ++ "', line " ++ a.numberText ++ ":\n    " ++ line ++ "\n"
  { out :=
      (if 1 < lines.length then "Traceback:\n" else "") ++ String.join lines ++
        r.ink.bright .red "[internal] " ++ r.ink.bright .red "error: " ++ words ++ "\n"
    reporter := if r.fatal then r else { r with active := r.active.map fun a => .idle a.path }
    failure := some (if r.fatal then .exit (some 1) else .fault f) }

theorem announced_out_injective : Function.Injective fun words => (r.announced f words).out := by
  intro words words' h
  simpa [announced] using h

theorem announced_out_ne_empty (words : String) : (r.announced f words).out ≠ "" := by
  simp [announced]

theorem throw_internal (hd : d.internal = true) (hcause : d.cause = .general) :
    { r.throw d with failure := (r.throw d).failure.or (some (.fault f)) } =
      r.announced f d.marked := by
  have hpositioned : d.isPositioned = false := by
    simp [Diagnostic.isPositioned, hd]
  have hexcerpt : excerptError? d = none := by
    rw [excerptError?, hpositioned]
    rfl
  have hlines : r.active.filterMap (lineReport d) = r.active.filterMap fun a =>
      a.shown?.map fun line =>
        "  File '" ++ a.path ++ "', line " ++ a.numberText ++ ":\n    " ++ line ++ "\n" := by
    refine List.filterMap_congr fun a _ => ?_
    simp [lineReport, hpositioned]
  have hreport : r.errorReport d = (r.announced f d.marked).out := by
    simp [errorReport, hlines, errorDetails, hpositioned, hcause, hd, announced]
  rw [throw, hexcerpt]
  cases hfatal : r.fatal with
  | true => simp [hreport, announced, hfatal]
  | false => simp [hreport, announced, hfatal, clear]

/-- The diagnostic of a fault is made from its announcement. -/
theorem faultDiagnostic_eq (ink : Ink) (f : Fault) :
    faultDiagnostic ink f =
      (Diagnostic.ofTemplate ink f.announcement [""] 0 (-1) .general).map
        ({ · with internal := true }) := by
  show (Diagnostic.ofTemplate ink f.announcement [""] 0 (-1) .general >>= _) = _
  cases Diagnostic.ofTemplate ink f.announcement [""] 0 (-1) .general <;> rfl

/-- A fault is reported in the words that its announcement is filled to. Where it cannot be filled
the fault of the template takes the place of the fault. -/
theorem settle_fault (r : Reporter) (f : Fault) :
    (∃ words, fill f.announcement [r.ink.bold ""] = .ok words ∧
        r.settle (.fault f) = r.announced f words) ∨
      ∃ e, (fill f.announcement [r.ink.bold ""] = .error e ∨
          fill f.announcement [""] = .error e) ∧
        r.settle (.fault f) = ⟨"", r, some (.fault (.template e))⟩ := by
  rw [settle, faultDiagnostic_eq, Diagnostic.ofTemplate, List.map_singleton]
  cases hmarked : fill f.announcement [r.ink.bold ""] with
  | error e => exact .inr ⟨e, .inl rfl, rfl⟩
  | ok words =>
    cases hplain : fill f.announcement [""] with
    | error e => exact .inr ⟨e, .inr rfl, rfl⟩
    | ok message => exact .inl ⟨words, rfl, throw_internal rfl rfl⟩

/-- A fault whose announcement has no braces is reported as it is. -/
theorem settle_fault_of_braceFree (h : BraceFree f.announcement.toList) :
    r.settle (.fault f) = r.announced f f.announcement := by
  rcases settle_fault r f with ⟨words, hfill, hsettle⟩ | ⟨e, hfill, -⟩
  · rw [fill_of_braceFree h] at hfill
    obtain rfl : f.announcement = words := Except.ok.inj hfill
    exact hsettle
  · rw [fill_of_braceFree h, fill_of_braceFree h, or_self] at hfill
    exact nomatch hfill

/-- Where nothing is written in colour an announcement that is reported as it is has no braces. -/
theorem braceFree_of_announced (hink : r.ink = .plain)
    (h : (r.settle (.fault f)).out = (r.announced f f.announcement).out) :
    BraceFree f.announcement.toList := by
  rcases settle_fault r f with ⟨words, hfill, hsettle⟩ | ⟨e, -, hsettle⟩
  · rw [hsettle] at h
    obtain rfl : words = f.announcement := announced_out_injective h
    rw [hink, Ink.bold_plain] at hfill
    exact braceFree_of_fill_eq_self hfill
  · rw [hsettle] at h
    exact absurd h.symm (announced_out_ne_empty _)

/-- A fault is announced below the active lines, and then it ends the program or goes on, unless the
fault of a template takes its place. It is announced by its name and text as they are if these have
no braces, and in plain ink only if they have none. -/
theorem fault_announced_iff (r : Reporter) (f : Fault) :
    ((∃ words, r.settle (.fault f) = r.announced f words) ∨
        ∃ e, r.settle (.fault f) = ⟨"", r, some (.fault (.template e))⟩) ∧
      (BraceFree f.name.toList ∧ BraceFree f.text.toList →
        r.settle (.fault f) = r.announced f f.announcement) ∧
      (r.ink = .plain → (r.settle (.fault f)).out = (r.announced f f.announcement).out →
        BraceFree f.name.toList ∧ BraceFree f.text.toList) := by
  refine ⟨?_, fun h => settle_fault_of_braceFree (f.braceFree_announcement.2 h),
    fun hink h => f.braceFree_announcement.1 (braceFree_of_announced hink h)⟩
  rcases settle_fault r f with ⟨words, -, hsettle⟩ | ⟨e, -, hsettle⟩
  · exact .inl ⟨words, hsettle⟩
  · exact .inr ⟨e, hsettle⟩

/-- Of two faults under the same active line one is announced, and the other is not since there are
braces in its text. -/
theorem fault_braces_lost :
    let r : Reporter := ⟨.plain, false, [⟨"f", some "src", some 4⟩]⟩
    r.settle (.fault (.other "KeyError" "'x'")) =
        r.announced (.other "KeyError" "'x'") (Fault.other "KeyError" "'x'").announcement ∧
      (r.settle (.fault (.other "ValueError" "\x7b\x7d"))).out ≠
        (r.announced (.other "ValueError" "\x7b\x7d")
          (Fault.other "ValueError" "\x7b\x7d").announcement).out ∧
      (r.settle (.fault (.other "ValueError" "\x7b\x7d"))).out =
        "  File 'f', line 4:\n    src\n[internal] error: unknown error: 'ValueError: '\n" := by
  intro r
  have hname : BraceFree "KeyError".toList := braceFree_of_eq_ofList rfl (by decide)
  have htext : BraceFree "'x'".toList := braceFree_of_eq_ofList rfl (by decide)
  refine ⟨(fault_announced_iff r _).2.1 ⟨hname, htext⟩, fun h => ?_, by decide +kernel⟩
  exact absurd ((fault_announced_iff r _).2.2 rfl h).2 (by decide)

end Reporter

end TermCalc
