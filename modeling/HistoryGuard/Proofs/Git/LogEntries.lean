import HistoryGuard.Git.Query
import HistoryGuard.Proofs.Shell
import HistoryGuard.Proofs.Text.Listing

/-! # Logs read back

Git prints an entry of a log on a line of its own, and no line feed or carriage return stands in a
subject. Other characters end a line too when the log is read. So an entry comes back as it was
exactly if its subject holds none of them, and one that does not leaves the others alone.
-/

namespace HistoryGuard.Git

open Run Shell Text

namespace LogEntry

/-- How git prints the entry, without the line feed after it. -/
def line (e : LogEntry) : String := e.sha ++ " " ++ e.subject

/-- Git may print the entry: it has a hash, which is one word, and its subject is left on its
line when the output is read as text. -/
structure Printable (e : LogEntry) : Prop where
  ne : e.sha ≠ ""
  solid : Solid e.sha.toList
  flat : '\r' ∉ e.subject.toList

end LogEntry

def logListing (entries : List LogEntry) : String :=
  String.join ((entries.map LogEntry.line).map (· ++ "\n"))

def logCall (dir : String) (limit : Int) : Call :=
  { args := ["log", "--max-count=" ++ toString limit, "--format=%H %s", "HEAD"], dir }

section Entries

variable {e : LogEntry} {entries : List LogEntry}

theorem LogEntry.toList_line (e : LogEntry) :
    e.line.toList = e.sha.toList ++ ' ' :: e.subject.toList := by
  simp [line]

theorem LogEntry.Printable.no_return (h : e.Printable) : '\r' ∉ e.line.toList := by
  rw [e.toList_line]
  simp [h.solid.unbroken.no_return, h.flat]

theorem readLog_listing (printable : ∀ e ∈ entries, e.Printable) :
    readLog (logListing entries) = entries.flatMap fun e => readLog (e.line ++ "\n") := by
  have lines : lines (logListing entries) = entries.flatMap fun e => lines (e.line ++ "\n") := by
    rw [logListing, lines_join_flatMap, List.flatMap_map]
    rintro _ listed
    obtain ⟨e, he, rfl⟩ := List.mem_map.mp listed
    exact (printable e he).no_return
  rw [readLog, lines, List.filter_flatMap, List.map_flatMap]
  rfl

theorem no_return_logListing (printable : ∀ e ∈ entries, e.Printable) :
    '\r' ∉ (logListing entries).toList := by
  simp only [logListing, String.toList_join, List.mem_flatMap, List.mem_map]
  rintro ⟨_, ⟨_, ⟨e, he, rfl⟩, rfl⟩, inside⟩
  simp [(printable e he).no_return] at inside

theorem readEntry_line (h : e.Printable) : readEntry e.line = e := by
  rw [readEntry, e.toList_line, cutAtSpace_append h.solid]
  simp

theorem readLog_of_unbroken (h : e.Printable) (unbroken : Unbroken e.subject.toList) :
    readLog (e.line ++ "\n") = [e] := by
  have one : lines (e.line ++ "\n") = [e.line] := by
    apply lines_of_unbroken
    rw [e.toList_line, ← List.singleton_append]
    exact h.solid.unbroken.append (Unbroken.append (by decide) unbroken)
  have told : strip e.line ≠ "" := by
    have ne : e.sha.toList ≠ [] := by simpa using h.ne
    rw [strip, e.toList_line]
    simpa using trim_append_ne_nil h.solid ne
  simp [readLog, one, told, readEntry_line h]

/-- Whatever is read has a subject without a break. -/
theorem unbroken_of_mem_readLog {out : String} (h : e ∈ readLog out) :
    Unbroken e.subject.toList := by
  obtain ⟨line, hl, rfl⟩ := List.mem_map.mp h
  intro c hc
  have rest : c ∈ (line.toList.dropWhile (· != ' ')).tail := by
    simpa [readEntry, cutAtSpace] using hc
  apply unbroken_of_mem_lines (List.mem_filter.mp hl).1
  exact (List.dropWhile_sublist _).subset (List.mem_of_mem_tail rest)

end Entries

theorem log_of_printed (dir : String) (limit : Int) {entries : List LogEntry} {s : Shell}
    {err : ByteArray} (printable : ∀ e ∈ entries, e.Printable)
    (printed : s.git s.past (logCall dir limit) = .ended 0 (logListing entries).toByteArray err)
    (readable : decode err ≠ none) :
    log dir limit s = (.ok (readLog (logListing entries)), after (logCall dir limit) s) := by
  obtain ⟨warnings, read⟩ := Option.ne_none_iff_exists'.mp readable
  have text := decode_of_no_return (no_return_logListing printable)
  exact bind_of_ok (output_of_printed printed text read)

/-- Where git prints the log of these entries, each is read by itself, and the log comes back as it
was exactly if no subject holds a character that ends a line. -/
theorem log_returned_iff (dir : String) (limit : Int) {entries : List LogEntry} {s : Shell}
    {err : ByteArray} (printable : ∀ e ∈ entries, e.Printable)
    (printed : s.git s.past (logCall dir limit) = .ended 0 (logListing entries).toByteArray err)
    (readable : decode err ≠ none) :
    ∃ found, log dir limit s = (.ok found, after (logCall dir limit) s) ∧
      found = entries.flatMap (fun e => readLog (e.line ++ "\n")) ∧
      (∀ e ∈ entries, readLog (e.line ++ "\n") = [e] ↔ Unbroken e.subject.toList) ∧
      (found = entries ↔ ∀ e ∈ entries, Unbroken e.subject.toList) := by
  have own (e : LogEntry) (he : e ∈ entries) :
      readLog (e.line ++ "\n") = [e] ↔ Unbroken e.subject.toList :=
    ⟨fun same => unbroken_of_mem_readLog (same ▸ List.mem_singleton_self e),
      readLog_of_unbroken (printable e he)⟩
  refine ⟨_, log_of_printed dir limit printable printed readable, readLog_listing printable, own,
    ?_, ?_⟩
  · intro same e he
    exact unbroken_of_mem_readLog (same.symm ▸ he)
  · intro unbroken
    rw [readLog_listing printable,
      List.flatMap_congr fun e he => (own e he).mpr (unbroken e he)]
    exact List.flatMap_singleton' entries

def logGit (entries : List LogEntry) : Git := fun _ _ =>
  .ended 0 (logListing entries).toByteArray "".toByteArray

theorem readable_empty : decode "".toByteArray ≠ none := by
  rw [decode_of_no_return (by decide)]
  exact Option.some_ne_none _

theorem log_returned_iff_spaced :
    let entries : List LogEntry := [⟨"c0ffee", ""⟩, ⟨"beef", "  a b "⟩]
    (∀ e ∈ entries, e.Printable) ∧ (log "/work" 500 { git := logGit entries }).1 = .ok entries := by
  intro entries
  have printable : ∀ e ∈ entries, e.Printable := by
    simp only [entries, List.forall_mem_cons, List.not_mem_nil]
    exact ⟨⟨by decide, by decide, by decide⟩, ⟨by decide, by decide, by decide⟩, by simp⟩
  obtain ⟨found, run, -, -, returned⟩ :=
    log_returned_iff "/work" 500 (s := { git := logGit entries }) printable rfl readable_empty
  obtain rfl : found = entries := returned.mpr (by decide)
  exact ⟨printable, congrArg Prod.fst run⟩

/-- A subject with a line separator in it is cut, and what comes after it is read as an entry of
its own. -/
theorem broken_subject_misread :
    let e : LogEntry := ⟨"c0ffee", "a\u2028b"⟩
    let found := (log "/work" 500 { git := logGit [e] }).1
    e.Printable ∧ '\n' ∉ e.subject.toList ∧ found = .ok [⟨"c0ffee", "a"⟩, ⟨"b", ""⟩] ∧
      found ≠ .ok [e] := by
  intro e found
  have printable : e.Printable := ⟨by decide, by decide, by decide⟩
  have misread : found = .ok [⟨"c0ffee", "a"⟩, ⟨"b", ""⟩] := by
    have run := log_of_printed "/work" 500 (s := { git := logGit [e] })
      (List.forall_mem_singleton.mpr printable) rfl readable_empty
    have read : readLog (logListing [e]) = [⟨"c0ffee", "a"⟩, ⟨"b", ""⟩] := by decide
    rw [← read]
    exact congrArg Prod.fst run
  refine ⟨printable, by decide, misread, ?_⟩
  rw [misread]
  decide

end HistoryGuard.Git
