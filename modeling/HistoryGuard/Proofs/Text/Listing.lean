import Mathlib.Data.List.DropRight
import Mathlib.Data.List.TakeWhile
import HistoryGuard.Text.Lines

/-! # Reading listings back

Git prints names line by line or with spaces in between. Names without blanks are read back from
such a listing as they are.
-/

namespace HistoryGuard.Text

/-- The text holds no blank. -/
def Solid (s : List Char) : Prop := ∀ c ∈ s, isBlank c = false

def Blank (s : List Char) : Prop := ∀ c ∈ s, isBlank c = true

/-- The text lies on one line. -/
def Unbroken (s : List Char) : Prop := ∀ c ∈ s, isBreak c = false

instance (s : List Char) : Decidable (Solid s) := List.decidableBAll _ s

instance (s : List Char) : Decidable (Blank s) := List.decidableBAll _ s

instance (s : List Char) : Decidable (Unbroken s) := List.decidableBAll _ s

theorem Solid.unbroken {s : List Char} (h : Solid s) : Unbroken s := by
  intro c hc
  rw [← Bool.not_eq_true]
  intro hb
  have blank := isBlank_of_isBreak hb
  simp [h c hc] at blank

theorem Unbroken.append {s t : List Char} (hs : Unbroken s) (ht : Unbroken t) :
    Unbroken (s ++ t) := by
  intro c hc
  rcases List.mem_append.mp hc with hc | hc
  · exact hs c hc
  · exact ht c hc

theorem Solid.append {s t : List Char} (hs : Solid s) (ht : Solid t) : Solid (s ++ t) := by
  intro c hc
  rcases List.mem_append.mp hc with hc | hc
  · exact hs c hc
  · exact ht c hc

/-- A text that names something to git. -/
structure Name where
  text : String
  ne : text ≠ ""
  solid : Solid text.toList
  deriving DecidableEq

theorem Name.toList_ne (n : Name) : n.text.toList ≠ [] := by
  simpa using n.ne

section Trim

variable {s t : List Char}

theorem trimStart_append (hs : Solid s) (ne : s ≠ []) : trimStart (s ++ t) = s ++ t := by
  cases s with
  | nil => exact absurd rfl ne
  | cons c s =>
    have hc := hs c List.mem_cons_self
    simp [trimStart, hc]

theorem trimEnd_append (ht : Solid t) (ne : t ≠ []) : trimEnd (s ++ t) = s ++ t := by
  have solid : Solid t.reverse := fun c hc => ht c (List.mem_reverse.mp hc)
  have h := trimStart_append (t := s.reverse) solid (by simpa using ne)
  rw [trimStart] at h
  rw [trimEnd, List.reverse_append, h, List.reverse_append, List.reverse_reverse,
    List.reverse_reverse]

theorem trim_append_ne_nil (hs : Solid s) (ne : s ≠ []) : trim (s ++ t) ≠ [] := by
  rw [trim, trimStart_append hs ne]
  intro nothing
  have blank := List.rdropWhile_eq_nil_iff.mp nothing
  obtain ⟨c, rest, rfl⟩ := List.exists_cons_of_ne_nil ne
  have hc := blank c (by simp)
  simp [hs c List.mem_cons_self] at hc

theorem trimStart_eq_nil_iff : trimStart s = [] ↔ Blank s := List.dropWhile_eq_nil_iff

theorem trim_eq_nil_iff : trim s = [] ↔ Blank s := by
  constructor
  · intro nothing c hc
    have rest : Blank (trimStart s) := List.rdropWhile_eq_nil_iff.mp nothing
    rw [← List.takeWhile_append_dropWhile (p := isBlank) (l := s), List.mem_append] at hc
    rcases hc with hc | hc
    · exact List.mem_takeWhile_imp hc
    · exact rest c hc
  · intro blank
    rw [trim, trimStart_eq_nil_iff.mpr blank]
    rfl

theorem trim_of_solid (h : Solid s) : trim s = s := by
  by_cases ne : s = []
  · rw [ne]
    rfl
  · have start := trimStart_append (t := []) h ne
    have stop := trimEnd_append (s := []) h ne
    rw [List.append_nil] at start
    rw [List.nil_append] at stop
    rw [trim, start, stop]

theorem trim_append_blank {c : Char} (h : isBlank c = true) : trim (s ++ [c]) = trim s := by
  have shorter : ∀ u : List Char, trimEnd (u ++ [c]) = trimEnd u := by
    intro u
    simp [trimEnd, h]
  unfold trim trimStart
  rw [List.dropWhile_append]
  split
  · next empty =>
    rw [List.isEmpty_iff.mp empty]
    simp [h]
  · exact shorter _

theorem trim_subset (s : List Char) : trim s ⊆ s := by
  intro c hc
  have h : c ∈ (trimStart s).reverse.dropWhile isBlank := List.mem_reverse.mp hc
  have h' : c ∈ trimStart s := List.mem_reverse.mp ((List.dropWhile_sublist _).subset h)
  exact (List.dropWhile_sublist _).subset h'

theorem trimStart_trim (s : List Char) : trimStart (trim s) = trim s := by
  refine List.dropWhile_eq_self_iff.mpr fun some => ?_
  -- the first character left is the first one of `trimStart s`
  have lead : trim s <+: trimStart s := List.rdropWhile_prefix _ _
  rw [lead.getElem some]
  exact List.dropWhile_eq_self_iff.mp (List.dropWhile_idempotent isBlank s) _

theorem trim_trim (s : List Char) : trim (trim s) = trim s := by
  have stop : trimEnd (trim s) = trim s := List.rdropWhile_idempotent _ _
  rw [trim, trimStart_trim, stop]

/-- A text is without blank ends if neither its first nor its last character is blank. -/
theorem trim_eq_self_iff {s : List Char} :
    trim s = s ↔ ∀ ne : s ≠ [], isBlank (s.head ne) = false ∧ isBlank (s.getLast ne) = false := by
  constructor
  · intro same ne
    have start : trimStart s = s := by rw [← same, trimStart_trim]
    have stop : trimEnd s = s := by rwa [trim, start] at same
    refine ⟨?_, by simpa using List.rdropWhile_eq_self_iff.mp stop ne⟩
    rw [List.head_eq_getElem]
    simpa using List.dropWhile_eq_self_iff.mp start (List.length_pos_of_ne_nil ne)
  · intro ends
    have start : trimStart s = s := by
      refine List.dropWhile_eq_self_iff.mpr fun some => ?_
      have ne : s ≠ [] := List.ne_nil_of_length_pos some
      simpa [List.head_eq_getElem] using (ends ne).1
    have stop : trimEnd s = s :=
      List.rdropWhile_eq_self_iff.mpr fun ne => by simp [(ends ne).2]
    rw [trim, start, stop]

theorem trim_append_append {s t : List Char} (mid : List Char) (hs : trim s = s) (ht : trim t = t)
    (nes : s ≠ []) (net : t ≠ []) : trim (s ++ mid ++ t) = s ++ mid ++ t := by
  refine trim_eq_self_iff.mpr fun ne => ?_
  have lead : s ++ mid ≠ [] := List.append_ne_nil_of_left_ne_nil nes mid
  rw [List.head_append_of_ne_nil lead, List.head_append_of_ne_nil nes,
    List.getLast_append_of_ne_nil ne net]
  exact ⟨(trim_eq_self_iff.mp hs nes).1, (trim_eq_self_iff.mp ht net).2⟩

end Trim

theorem strip_strip (s : String) : strip (strip s) = strip s := by
  rw [strip, toList_strip, trim_trim, strip]

theorem strip_eq_empty_iff {s : String} : strip s = "" ↔ Blank s.toList := by
  rw [← String.toList_inj, toList_strip]
  exact trim_eq_nil_iff

theorem strip_append_newline (s : String) : strip (s ++ "\n") = strip s := by
  unfold strip
  rw [String.toList_append]
  exact congrArg String.ofList (trim_append_blank rfl)

theorem strip_of_solid {s : String} (h : Solid s.toList) : strip s = s := by
  rw [strip, trim_of_solid h, String.ofList_toList]

theorem toList_join_cons (l : String) (ls : List String) :
    (String.join ((l :: ls).map (· ++ "\n"))).toList =
      l.toList ++ '\n' :: (String.join (ls.map (· ++ "\n"))).toList := by
  simp

section Words

theorem words_name (n : Name) {c : Char} (hc : isBlank c = true) (rest : List Char) :
    words (n.text.toList ++ c :: rest) = n.text.toList :: words rest := by
  rw [words, List.splitOnP_append_cons_of_forall_mem n.solid c hc, List.filter_cons]
  simp [words, n.ne]

theorem fields_join (ns : List Name) :
    fields (String.join ((ns.map (·.text)).map (· ++ "\n"))) = ns.map (·.text) := by
  rw [fields]
  induction ns with
  | nil => rfl
  | cons n ns ih =>
    rw [List.map_cons, toList_join_cons, words_name n rfl, List.map_cons, String.ofList_toList, ih]

theorem fields_intercalate (ns : List Name) :
    fields (" ".intercalate (ns.map (·.text)) ++ "\n") = ns.map (·.text) := by
  rw [fields]
  induction ns with
  | nil => rfl
  | cons n ns ih =>
    cases ns with
    | nil =>
      have one : (" ".intercalate [n.text] ++ "\n").toList = n.text.toList ++ '\n' :: [] := by simp
      rw [List.map_cons, List.map_nil, one, words_name n rfl, List.map_cons, String.ofList_toList]
      rfl
    | cons m ns =>
      have more : (" ".intercalate ((n :: m :: ns).map (·.text)) ++ "\n").toList =
          n.text.toList ++ ' ' :: (" ".intercalate ((m :: ns).map (·.text)) ++ "\n").toList := by
        rw [List.map_cons, List.map_cons, String.intercalate_cons_cons]
        simp
      rw [more, words_name n rfl, List.map_cons, String.ofList_toList, ih]
      rfl

end Words

section CutAtSpace

theorem Solid.no_space {s : List Char} (h : Solid s) : ∀ c ∈ s, (c != ' ') = true := by
  intro c hc
  have solid := h c hc
  rw [bne_iff_ne]
  rintro rfl
  rw [isBlank_space] at solid
  cases solid

theorem cutAtSpace_append {s t : List Char} (h : Solid s) :
    cutAtSpace (s ++ ' ' :: t) = (s, t) := by
  simp [cutAtSpace, List.takeWhile_append_of_pos h.no_space,
    List.dropWhile_append_of_pos h.no_space]

theorem cutAtSpace_of_no_space {s : List Char} (h : ' ' ∉ s) : cutAtSpace s = (s, []) := by
  have other : ∀ c ∈ s, (c != ' ') = true := by
    intro c hc
    rw [bne_iff_ne]
    rintro rfl
    exact h hc
  rw [cutAtSpace, List.takeWhile_eq_self_iff.mpr other, List.dropWhile_eq_nil_iff.mpr other,
    List.tail_nil]

theorem cutAtSpace_of_solid {s : List Char} (h : Solid s) : cutAtSpace s = (s, []) := by
  refine cutAtSpace_of_no_space fun space => ?_
  simpa using h.no_space _ space

/-- Without blank ends, something comes after the first space. -/
theorem cutAtSpace_trim_snd_eq_nil_iff {s : List Char} :
    (cutAtSpace (trim s)).2 = [] ↔ ' ' ∉ trim s := by
  refine ⟨fun nothing space => ?_, fun h => by rw [cutAtSpace_of_no_space h]⟩
  rw [cutAtSpace] at nothing
  have whole := List.takeWhile_append_dropWhile (p := (· != ' ')) (l := trim s)
  have stop := List.head?_dropWhile_not (· != ' ') (trim s)
  cases hd : (trim s).dropWhile (· != ' ') with
  | nil => simpa using List.dropWhile_eq_nil_iff.mp hd ' ' space
  | cons c rest =>
    rw [hd] at whole stop nothing
    obtain rfl : rest = [] := nothing
    obtain rfl : c = ' ' := by simpa using stop
    obtain ⟨lead, ends⟩ : ∃ lead, trim s = lead ++ [' '] := ⟨_, whole.symm⟩
    have ne : trim s ≠ [] := by simp [ends]
    have last : (trim s).getLast ne = ' ' := by simp [ends]
    have blank : ¬ isBlank ((trim s).getLast ne) = true :=
      List.rdropWhile_last_not isBlank (trimStart s) ne
    exact blank (last ▸ isBlank_space)

end CutAtSpace

section Lines

theorem Unbroken.no_return {s : List Char} (h : Unbroken s) : '\r' ∉ s := by
  intro hr
  have := h '\r' hr
  simp [isBreak] at this

theorem joinPairs_append {s : List Char} (h : '\r' ∉ s) (t : List Char) :
    joinPairs (s ++ t) = s ++ joinPairs t := by
  induction s with
  | nil => rfl
  | cons c s ih =>
    obtain ⟨hc, hs⟩ := not_or.mp (mt List.mem_cons.mpr h)
    rw [List.cons_append, joinPairs, ih hs]
    · rfl
    · rintro cs rfl
      exact absurd rfl hc

theorem joinPairs_of_no_return {s : List Char} (h : '\r' ∉ s) : joinPairs s = s := by
  simpa [joinPairs] using joinPairs_append h []

theorem foldReturns_of_no_return {s : List Char} (h : '\r' ∉ s) : foldReturns s = s := by
  rw [foldReturns, joinPairs_of_no_return h]
  refine (List.map_congr_left fun c hc => if_neg ?_).trans (List.map_id s)
  rintro rfl
  exact h hc

theorem dropOpenEnd_append (pieces : List (List Char)) {more : List (List Char)} (ne : more ≠ []) :
    dropOpenEnd (pieces ++ more) = pieces ++ dropOpenEnd more := by
  rw [dropOpenEnd, dropOpenEnd, List.getLast?_append_of_ne_nil pieces ne]
  split
  · exact List.dropLast_append_of_ne_nil ne
  · rfl

theorem breakLines_append {s : List Char} (h : '\r' ∉ s) (t : List Char) :
    breakLines (s ++ '\n' :: t) = s.splitOnP isBreak ++ breakLines t := by
  have ended : joinPairs (s ++ '\n' :: t) = s ++ '\n' :: joinPairs t := by
    rw [joinPairs_append h, joinPairs]
    simp
  rw [breakLines, ended, List.splitOnP_append_cons _ _ rfl,
    dropOpenEnd_append _ (List.splitOnP_ne_nil _ _), breakLines]

theorem breakLines_ended {s : List Char} (h : '\r' ∉ s) :
    breakLines (s ++ ['\n']) = s.splitOnP isBreak := by
  rw [breakLines_append h]
  exact List.append_nil _

/-- Each text of a listing is broken by itself. -/
theorem lines_join_flatMap {ls : List String} (h : ∀ l ∈ ls, '\r' ∉ l.toList) :
    lines (String.join (ls.map (· ++ "\n"))) = ls.flatMap fun l => lines (l ++ "\n") := by
  induction ls with
  | nil => rfl
  | cons l ls ih =>
    have hl := h l List.mem_cons_self
    have one : (l ++ "\n").toList = l.toList ++ ['\n'] := by simp
    rw [List.flatMap_cons, ← ih fun k hk => h k (List.mem_cons_of_mem _ hk), lines,
      toList_join_cons, breakLines_append hl, List.map_append, lines, one, breakLines_ended hl]
    rfl

theorem lines_of_unbroken {l : String} (h : Unbroken l.toList) : lines (l ++ "\n") = [l] := by
  have one : (l ++ "\n").toList = l.toList ++ ['\n'] := by simp
  rw [lines, one, breakLines_ended h.no_return, List.splitOnP_eq_singleton h]
  simp

theorem lines_join {ls : List String} (h : ∀ l ∈ ls, Unbroken l.toList) :
    lines (String.join (ls.map (· ++ "\n"))) = ls := by
  rw [lines_join_flatMap fun l hl => (h l hl).no_return,
    List.flatMap_congr fun l hl => lines_of_unbroken (h l hl)]
  exact List.flatMap_singleton' ls

/-- What stands between separators holds none. -/
theorem not_of_mem_splitOnP {α : Type} {p : α → Bool} {s piece : List α}
    (h : piece ∈ s.splitOnP p) : ∀ a ∈ piece, p a = false := by
  induction s generalizing piece with
  | nil =>
    obtain rfl : piece = [] := by simpa using h
    simp
  | cons c s ih =>
    rw [List.splitOnP_cons_eq_if_modifyHead] at h
    split at h
    · rcases List.mem_cons.mp h with rfl | h
      · simp
      · exact ih h
    · next hc =>
      cases hs : s.splitOnP p with
      | nil => exact absurd hs (List.splitOnP_ne_nil p s)
      | cons first rest =>
        rw [hs, List.modifyHead_cons] at h
        rcases List.mem_cons.mp h with rfl | h
        · intro a ha
          rcases List.mem_cons.mp ha with rfl | ha
          · simpa using hc
          · exact ih (hs ▸ List.mem_cons_self) a ha
        · exact ih (hs ▸ List.mem_cons_of_mem _ h)

theorem dropOpenEnd_subset (pieces : List (List Char)) : dropOpenEnd pieces ⊆ pieces := by
  rw [dropOpenEnd]
  split
  · exact (List.dropLast_sublist pieces).subset
  · exact fun _ h => h

theorem unbroken_of_mem_lines {s l : String} (h : l ∈ lines s) : Unbroken l.toList := by
  obtain ⟨line, hl, rfl⟩ := List.mem_map.mp h
  rw [String.toList_ofList]
  exact not_of_mem_splitOnP (dropOpenEnd_subset _ hl)

end Lines

/-- A line without blank ends that is not empty. -/
structure Tight (l : String) : Prop where
  ne : l ≠ ""
  strip_eq : strip l = l
  unbroken : Unbroken l.toList

theorem Tight.toList_ne {l : String} (h : Tight l) : l.toList ≠ [] := by
  simpa using h.ne

theorem Tight.trim_eq {l : String} (h : Tight l) : trim l.toList = l.toList := by
  rw [← toList_strip, h.strip_eq]

section Intercalate

variable {l : String} {ls : List String}

theorem toList_intercalate_cons_cons (l m : String) (ls : List String) :
    ("\n".intercalate (l :: m :: ls)).toList =
      l.toList ++ ['\n'] ++ ("\n".intercalate (m :: ls)).toList := by
  rw [String.intercalate_cons_cons, String.toList_append, String.toList_append]
  rfl

theorem intercalate_ne_empty (ne : l ≠ "") : "\n".intercalate (l :: ls) ≠ "" := by
  cases ls <;> simp [ne]

/-- Lines without blank ends make a text without blank ends. -/
theorem strip_intercalate (h : ∀ l ∈ ls, Tight l) :
    strip ("\n".intercalate ls) = "\n".intercalate ls := by
  suffices kept : trim ("\n".intercalate ls).toList = ("\n".intercalate ls).toList by
    rw [strip, kept, String.ofList_toList]
  induction ls with
  | nil => rfl
  | cons l ls ih =>
    obtain ⟨tight, others⟩ := List.forall_mem_cons.mp h
    cases ls with
    | nil =>
      rw [String.intercalate_singleton]
      exact tight.trim_eq
    | cons m ls =>
      have more : ("\n".intercalate (m :: ls)).toList ≠ [] :=
        mt String.toList_eq_nil_iff.mp (intercalate_ne_empty (others m List.mem_cons_self).ne)
      rw [toList_intercalate_cons_cons]
      exact trim_append_append _ tight.trim_eq (ih others) tight.toList_ne more

/-- The lines of a text are those that it has been put together from. -/
theorem lines_intercalate (h : ∀ l ∈ ls, Tight l) :
    lines ("\n".intercalate ls) = ls := by
  induction ls with
  | nil => rfl
  | cons l ls ih =>
    obtain ⟨⟨ne, -, unbroken⟩, others⟩ := List.forall_mem_cons.mp h
    have one := List.splitOnP_eq_singleton unbroken
    cases ls with
    | nil =>
      have closed : dropOpenEnd [l.toList] = [l.toList] := by
        simp [dropOpenEnd, ne]
      rw [String.intercalate_singleton, lines, breakLines,
        joinPairs_of_no_return unbroken.no_return, one, closed]
      simp
    | cons m ls =>
      have broken := breakLines_append unbroken.no_return ("\n".intercalate (m :: ls)).toList
      rw [lines, toList_intercalate_cons_cons, List.append_assoc, List.singleton_append, broken,
        one, List.map_append, ← lines, ih others]
      simp

end Intercalate

end HistoryGuard.Text
