import HistoryGuard.Proofs.CommandLine.Ending
import HistoryGuard.Proofs.CommandLine.Options

/-! # Patterns on the command line

Patterns on the command line are the whole policy of a check. What the environment holds for the
protection does not count beside them.
-/

namespace HistoryGuard.CommandLine

open Arguments (textOf)

def AgreeElsewhere (env env' : Environment) : Prop :=
  ∀ name, name ≠ Protection.patternsVariable → name ≠ Protection.enabledVariable →
    env.get? name = env'.get? name

/-- How the check of a commit goes under a policy, at the place and with the log level that the
options tell. There is none if the log cannot be set up. -/
def checked (around : Surroundings) (options : List Given) (commit : String) (policy : Policy) :
    Report :=
  let place := (Given.values .location options).getLast?.getD around.workDir
  let option := (Given.values .logLevel options).getLast?.bind textOf
  match LogLevel.choose option around.environment with
  | .error e => { outcome := .error e }
  | .ok level =>
    let (outcome, w) := Check.run (around.resolve place) commit
      (workspace around { git := around.git } policy)
    { logLevel := some level, outcome, events := w.shell.journal.reverse }

/-- The policy of patterns in their order. The text of a double dash is lost on the way, and what
comes after it is never tried. -/
def policyOf (patterns : List String) : Policy :=
  if "--" ∈ patterns then .brokenAfter (patterns.takeWhile (· ≠ "--"))
  else .protection ⟨patterns, true⟩

section Policy

variable {options : List Given} {patterns : List String}

theorem map_textOf (h : ∀ pattern ∈ patterns, pattern ≠ "--") :
    patterns.map textOf = patterns.map some :=
  List.map_congr_left fun pattern hm => if_neg (h pattern hm)

theorem isSome_textOf : Option.isSome ∘ textOf = fun pattern => decide (pattern ≠ "--") := by
  funext pattern
  by_cases h : pattern = "--" <;> simp [textOf, h]

theorem ofPatterns_textOf : Policy.ofPatterns (patterns.map textOf) = policyOf patterns := by
  unfold policyOf
  split
  · next dashes =>
    have broken : (patterns.map textOf).all Option.isSome ≠ true := by
      intro all
      rw [List.all_map, isSome_textOf, List.all_eq_true] at all
      simpa using all _ dashes
    have texts : ∀ pattern ∈ patterns.takeWhile (· ≠ "--"), pattern ≠ "--" := by
      intro pattern hm
      simpa using List.mem_takeWhile_imp hm
    rw [Policy.ofPatterns, if_neg broken, List.takeWhile_map, isSome_textOf, map_textOf texts]
    simp
  · next none =>
    rw [map_textOf fun pattern hm => ne_of_mem_of_not_mem hm none, Policy.ofPatterns_texts]

theorem policy_of_patterns (given : Given.values .pattern options ≠ []) (commit : String)
    (store? : Option Store) (env : Environment) :
    (requested options commit).policy store? env =
      .ok (policyOf (Given.values .pattern options)) := by
  simp [Arguments.policy, requested, given, ofPatterns_textOf]

end Policy

section Check

variable {around : Surroundings} {options : List Given} {commit : Word}

theorem directory_requested (commit : String) :
    (requested options commit).directory around =
      .ok (around.resolve ((Given.values .location options).getLast?.getD around.workDir)) := by
  unfold Arguments.directory requested
  cases (Given.values .location options).getLast? <;> rfl

theorem run_eq_checked {policy : Policy}
    (placed : ∀ o ∈ options, o.parameter = .location → o.value ≠ "--")
    (h : (requested options commit.text).policy none around.environment = .ok policy) :
    run around (options.flatMap Given.args ++ ["check", commit.text]) =
      checked around options commit.text policy := by
  have request : (requested options commit.text).request = .check commit.text := rfl
  simp only [run, parse_options commit placed, directory_requested, runRequest, request, runCheck,
    h]
  rfl

/-- Of the environment, a path sees the home directory only. -/
theorem resolve_of_agree {env : Environment} (h : AgreeElsewhere around.environment env) :
    ({ around with environment := env } : Surroundings).resolve = around.resolve := by
  have home : ({ around with environment := env } : Surroundings).home? = around.home? := by
    funext name
    simp only [Surroundings.home?, h "HOME" (by decide) (by decide)]
  funext path
  simp only [Surroundings.resolve, home]

theorem choose_of_agree {env env' : Environment} (h : AgreeElsewhere env env')
    (level : Option String) : LogLevel.choose level env = LogLevel.choose level env' := by
  have own := h "LOG_LEVEL" (by decide) (by decide)
  simp only [LogLevel.choose, LogLevel.choose.fromEnvironment, own]

theorem checked_of_agree {env : Environment} (h : AgreeElsewhere around.environment env)
    (commit : String) (policy : Policy) :
    checked { around with environment := env } options commit policy =
      checked around options commit policy := by
  simp only [checked, resolve_of_agree h, choose_of_agree h]
  rfl

/-- Patterns that are given on the command line are the policy of a check, in their order, unless
one of them is a double dash, and no variable of the protection is seen beside them. Without
patterns the policy is loaded from the environment. -/
theorem patterns_override (around : Surroundings) {options : List Given} (commit : Word)
    (placed : ∀ o ∈ options, o.parameter = .location → o.value ≠ "--") :
    let args := options.flatMap Given.args ++ ["check", commit.text]
    let patterns := Given.values .pattern options
    (patterns = [] → ∃ p, Protection.load none around.environment = .ok p ∧
      run around args = checked around options commit.text (.protection p)) ∧
    (patterns ≠ [] →
      run around args = checked around options commit.text (policyOf patterns) ∧
      ∀ env, AgreeElsewhere around.environment env →
        run { around with environment := env } args = run around args) := by
  intro args patterns
  constructor
  · intro none
    obtain ⟨p, loaded⟩ := load_without_store around.environment
    have unset : (requested options commit.text).patterns = [] := congrArg (List.map textOf) none
    refine ⟨p, loaded, run_eq_checked placed ?_⟩
    rw [Arguments.policy, if_pos unset, loaded]
    rfl
  · intro given
    have policy (env : Environment) := policy_of_patterns given commit.text none env
    refine ⟨run_eq_checked placed (policy _), fun env agree => ?_⟩
    calc run { around with environment := env } args
        = checked { around with environment := env } options commit.text (policyOf patterns) :=
          run_eq_checked placed (policy env)
      _ = checked around options commit.text (policyOf patterns) := checked_of_agree agree _ _
      _ = run around args := (run_eq_checked placed (policy _)).symm

theorem patterns_override_disabled :
    let around : Surroundings := { workDir := "/", git := unpushedGit }
    let options : List Given :=
      [.joined ⟨.pattern, "--protected", by decide, by decide⟩ "v*",
        .separate ⟨.location, "-C", by decide, by decide⟩ ⟨"/work", by decide, by rfl⟩,
        .joined ⟨.pattern, "--protected", by decide, by decide⟩ "main"]
    let args := ["--protected=v*", "-C", "/work", "--protected=main", "check", "c"]
    run around args = checked around options "c" (.protection ⟨["v*", "main"], true⟩) ∧
    run { around with environment := [(Protection.enabledVariable, "no")] } args =
      run around args := by
  intro around options args
  have placed : ∀ o ∈ options, o.parameter = .location → o.value ≠ "--" := by
    simp [options, Given.parameter, Given.value]
  obtain ⟨policy, same⟩ := (patterns_override around ⟨"c", by decide, by rfl⟩ placed).2
    (List.cons_ne_nil _ _)
  refine ⟨policy, same _ fun name _ other => ?_⟩
  simp [around, Environment.get?, other]

end Check

/-- A double dash is a pattern by which a check allows the edit, but given on the command line it
breaks the check. -/
theorem dashes_break_check :
    let around : Surroundings := { workDir := "/work", git := unpushedGit }
    let options : List Given := [.joined ⟨.pattern, "--protected", by decide, by decide⟩ "--"]
    Given.values .pattern options = ["--"] ∧
    (checked around options "c" (.protection ⟨["--"], true⟩)).outcome = .ok .allowed ∧
    (run around (options.flatMap Given.args ++ ["check", "c"])).outcome =
      .error .patternWithoutText := by
  refine ⟨rfl, ?_, ?_⟩
  · decide +kernel
  · decide +kernel

end HistoryGuard.CommandLine
