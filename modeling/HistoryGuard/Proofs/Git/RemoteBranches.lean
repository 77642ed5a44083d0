import HistoryGuard.Proofs.Git.Containing
import HistoryGuard.Proofs.Git.Snapshot

/-! # Remote branches and the names that contain a commit

A line of a listing names a branch of the longest remote that leads its path. Where the listing of
the branches that contain a commit has the same line, it adds the name of that branch with its
remote. So the two listings can be compared by name.
-/

namespace HistoryGuard.Git

open Run Shell Text

def trackingArgs : List String := ["for-each-ref", "--format=%(refname) %(symref)", "refs/remotes"]

/-- The line lists this branch of a remote: it gives the path of the branch below the space of the
remotes and no other ref, and no longer remote leads the path. -/
structure Names (remotes : List String) (line : String) (b : RemoteBranch) : Prop where
  ref : strip line = "refs/remotes/" ++ b.qualifiedName
  plain : ' ' ∉ (strip line).toList
  remote : IsLongest remotes b.remote b.qualifiedName.toList

/-- Where a listing of the branches that contain a commit has the line, it adds this name to them
and nothing else. -/
def AddsName (line name : String) : Prop :=
  ∀ (dir sha out out' : String) (earlier later : List String) (s t : Shell),
    AgreeBut { args := containingArgs sha, dir } s t →
    (output dir (containingArgs sha) s).1 = .ok out → lines out = earlier ++ later →
    (output dir (containingArgs sha) t).1 = .ok out' → lines out' = earlier ++ line :: later →
    (containing dir sha t).1 = (containing dir sha s).1.map (·.insert name)

section Line

variable {remotes : List String} {line : String} {b : RemoteBranch}

theorem target_eq_nil_iff : (readRefLine line).target = [] ↔ ' ' ∉ (strip line).toList := by
  rw [toList_strip]
  exact cutAtSpace_trim_snd_eq_nil_iff

theorem readRefLine_of_plain (plain : ' ' ∉ (strip line).toList) :
    readRefLine line = ⟨(strip line).toList, []⟩ := by
  rw [toList_strip] at plain ⊢
  rw [readRefLine, cutAtSpace_of_no_space plain]

theorem toList_qualifiedName (b : RemoteBranch) :
    b.qualifiedName.toList = (b.remote.toList ++ ['/']) ++ b.name.toList := by
  simp [RemoteBranch.qualifiedName]

theorem cut_eq_some_iff {path : List Char} :
    ((longestRemote remotes path).map fun r =>
      (⟨r, String.ofList (path.drop (r.length + 1))⟩ : RemoteBranch)) = some b ↔
      path = b.qualifiedName.toList ∧ IsLongest remotes b.remote path := by
  rw [Option.map_eq_some_iff]
  constructor
  · rintro ⟨r, found, rfl⟩
    have longest := longestRemote_eq_some_iff.mp found
    refine ⟨?_, longest⟩
    obtain ⟨name, rfl⟩ := longest.leads
    rw [toList_qualifiedName, List.drop_left' (by simp [String.length_toList]),
      String.toList_ofList]
  · rintro ⟨rfl, longest⟩
    refine ⟨b.remote, longestRemote_eq_some_iff.mpr longest, ?_⟩
    rw [toList_qualifiedName, List.drop_left' (by simp [String.length_toList]),
      String.ofList_toList]

theorem remoteBranch?_eq_some_iff
    (below : strip line ≠ "" → remoteSpace <+: (strip line).toList) :
    (readRefLine line).remoteBranch? remotes = some b ↔ Names remotes line b := by
  by_cases plain : ' ' ∉ (strip line).toList
  case neg =>
    have symbolic : (readRefLine line).target ≠ [] := mt target_eq_nil_iff.mp plain
    constructor
    · simp [RefLine.remoteBranch?, symbolic]
    · exact fun names => absurd names.plain plain
  rw [readRefLine_of_plain plain, RefLine.remoteBranch?]
  by_cases empty : strip line = ""
  · constructor
    · simp [empty]
    · rintro ⟨ref, -, -⟩
      simp [empty] at ref
  obtain ⟨path, hp⟩ := below empty
  have read : strip line = "refs/remotes/" ++ b.qualifiedName ↔ path = b.qualifiedName.toList := by
    rw [← String.toList_inj, ← hp, String.toList_append]
    exact List.append_right_inj remoteSpace
  have some : ((strip line).toList != []) = true := by simpa [-toList_strip] using empty
  have rest : (strip line).toList.drop remoteSpace.length = path := by rw [← hp, List.drop_left]
  simp only [some, decide_true, Bool.and_self, if_pos, rest]
  rw [cut_eq_some_iff]
  constructor
  · rintro ⟨rfl, longest⟩
    exact ⟨read.mpr rfl, plain, longest⟩
  · rintro ⟨ref, -, longest⟩
    obtain rfl := read.mp ref
    exact ⟨rfl, longest⟩

/-- A line names a branch of a remote if it gives no other ref and some remote leads its path. -/
theorem exists_names_iff {path : String} (below : strip line = "refs/remotes/" ++ path) :
    (∃ b, Names remotes line b) ↔
      ' ' ∉ path.toList ∧ ∃ r ∈ remotes, r.toList ++ ['/'] <+: path.toList := by
  have plain : ' ' ∉ (strip line).toList ↔ ' ' ∉ path.toList := by
    have lead : ' ' ∉ "refs/remotes/".toList := by decide
    rw [below, String.toList_append, List.mem_append, not_or]
    exact and_iff_right lead
  constructor
  · rintro ⟨b, names⟩
    obtain rfl : path = b.qualifiedName :=
      (String.append_right_inj "refs/remotes/").mp (below.symm.trans names.ref)
    exact ⟨plain.mp names.plain, b.remote, names.remote.mem, names.remote.leads⟩
  · rintro ⟨solid, r, mem, leads⟩
    obtain ⟨remote, -, longest⟩ := exists_longestRemote mem leads
    obtain ⟨name, hn⟩ := longest.leads
    have path_eq : path = RemoteBranch.qualifiedName ⟨remote, String.ofList name⟩ := by
      rw [← String.toList_inj, toList_qualifiedName, String.toList_ofList, hn]
    exact ⟨⟨remote, String.ofList name⟩, path_eq ▸ below, plain.mpr solid, path_eq ▸ longest⟩

theorem Names.branch?_eq (names : Names remotes line b) :
    (readRefLine line).branch? = some b.qualifiedName := by
  have ref : (strip line).toList = remoteSpace ++ b.qualifiedName.toList := by
    rw [names.ref, String.toList_append]
    rfl
  have ne : b.qualifiedName.toList ≠ [] := by simp [toList_qualifiedName]
  obtain ⟨c, cs, hc⟩ := List.exists_cons_of_ne_nil ne
  rw [readRefLine_of_plain names.plain, RefLine.branch?, ref, shortName_remote, if_pos rfl, hc]
  simp only
  rw [← hc, String.ofList_toList]

end Line

theorem remoteBranches_of_listed {dir remotes listing : String} {s t u : Shell}
    (asked : output dir ["remote"] s = (.ok remotes, t))
    (listed : output dir trackingArgs t = (.ok listing, u)) :
    remoteBranches dir s = (.ok ((lines listing).filterMap fun line =>
      (readRefLine line).remoteBranch? (fields remotes)), u) := by
  rw [remoteBranches, bind_of_ok asked]
  refine (bind_of_ok listed).trans ?_
  rw [listedRemoteBranches, readRefs, List.filterMap_map]
  rfl

/-- The remote branches are those that the lines of the listing name, one for each line that gives
no other ref and lies below some remote, in the order of the lines. They do not depend on the order
in which the remotes are told. Each line adds the same branch to those that contain a commit. -/
theorem remote_branches_agree {dir remotes listing : String} {s t u : Shell}
    (asked : output dir ["remote"] s = (.ok remotes, t))
    (listed : output dir trackingArgs t = (.ok listing, u))
    (below : ∀ line ∈ lines listing, strip line ≠ "" → remoteSpace <+: (strip line).toList) :
    ∃ branch? : String → Option RemoteBranch,
      remoteBranches dir s = (.ok ((lines listing).filterMap branch?), u) ∧
      (∀ line ∈ lines listing, ∀ b, branch? line = some b ↔ Names (fields remotes) line b) ∧
      (∀ line ∈ lines listing, ∀ path, strip line = "refs/remotes/" ++ path →
        ((∃ b, branch? line = some b) ↔
          ' ' ∉ path.toList ∧ ∃ r ∈ fields remotes, r.toList ++ ['/'] <+: path.toList)) ∧
      (∀ line ∈ lines listing, ∀ b, branch? line = some b → AddsName line b.qualifiedName) ∧
      ∀ remotes' s' t' u', output dir ["remote"] s' = (.ok remotes', t') →
        output dir trackingArgs t' = (.ok listing, u') →
        (∀ r, r ∈ fields remotes' ↔ r ∈ fields remotes) →
        (remoteBranches dir s').1 = (remoteBranches dir s).1 := by
  have names (line : String) (hl : line ∈ lines listing) (remotes : List String)
      (b : RemoteBranch) :
      (readRefLine line).remoteBranch? remotes = some b ↔ Names remotes line b :=
    remoteBranch?_eq_some_iff (below line hl)
  refine ⟨_, remoteBranches_of_listed asked listed, fun line hl b => names line hl _ b,
    fun line hl path hp => ?_, fun line hl b found => ?_, ?_⟩
  · rw [← exists_names_iff hp]
    exact exists_congr fun b => names line hl _ b
  · have named := ((names line hl _ b).mp found).branch?_eq
    intro dir sha out out' earlier later s t agree printed without printed' along
    exact containing_insert named agree printed without printed' along
  · intro remotes' s' t' u' asked' listed' same
    rw [remoteBranches_of_listed asked listed, remoteBranches_of_listed asked' listed']
    refine congrArg Except.ok (List.filterMap_congr fun line hl => Option.ext fun b => ?_)
    rw [names line hl, names line hl]
    constructor
    · rintro ⟨ref, plain, longest⟩
      exact ⟨ref, plain, (IsLongest.congr same).mp longest⟩
    · rintro ⟨ref, plain, longest⟩
      exact ⟨ref, plain, (IsLongest.congr same).mpr longest⟩

/-- Git with one remote inside another, and a branch of a remote that is gone. -/
def nestedGit : Git := fun _ call =>
  match call.args with
  | ["remote"] => .ended 0 "a\na/b\na\n".toByteArray "".toByteArray
  | "for-each-ref" :: _ => .ended 0 ("refs/remotes/a/HEAD refs/remotes/a/main\n" ++
    "refs/remotes/a/main \nrefs/remotes/a/b/fix \nrefs/remotes/gone/x \n").toByteArray
    "".toByteArray
  | _ => .ended 0 "".toByteArray "".toByteArray

theorem remote_branches_agree_nested :
    (remoteBranches "/work" { git := nestedGit }).1 = .ok [⟨"a", "main"⟩, ⟨"a/b", "fix"⟩] ∧
      AddsName "refs/remotes/a/b/fix " "a/b/fix" := by
  let s : Shell := { git := nestedGit }
  let told : Call := { args := ["remote"], dir := "/work" }
  let listing := "refs/remotes/a/HEAD refs/remotes/a/main\n" ++
    "refs/remotes/a/main \nrefs/remotes/a/b/fix \nrefs/remotes/gone/x \n"
  have silent : decode "".toByteArray = some "" := decode_of_no_return (by decide)
  have asked : output "/work" ["remote"] s = (.ok "a\na/b\na\n", after told s) :=
    output_of_printed rfl (decode_of_no_return (by decide)) silent
  have listed : output "/work" trackingArgs (after told s) =
      (.ok listing, after { args := trackingArgs, dir := "/work" } (after told s)) :=
    output_of_printed rfl (decode_of_no_return (by decide)) silent
  have remotes : fields "a\na/b\na\n" = ["a", "a/b", "a"] := by decide
  have split : lines listing = ["refs/remotes/a/HEAD refs/remotes/a/main", "refs/remotes/a/main ",
    "refs/remotes/a/b/fix ", "refs/remotes/gone/x "] := by decide
  have below : ∀ line ∈ lines listing, strip line ≠ "" → remoteSpace <+: (strip line).toList := by
    rw [split]
    decide
  obtain ⟨branch?, run, names, found, adds, -⟩ := remote_branches_agree asked listed below
  rw [split, remotes] at names found
  rw [split] at run adds
  simp only [List.forall_mem_cons, List.not_mem_nil, false_implies, implies_true, and_true]
    at names found adds
  obtain ⟨-, main, fix, -⟩ := names
  obtain ⟨symbolic, -, -, gone⟩ := found
  have noHead : branch? "refs/remotes/a/HEAD refs/remotes/a/main" = none := by
    rw [Option.eq_none_iff_forall_ne_some]
    intro b hb
    have := (symbolic "a/HEAD refs/remotes/a/main" (by decide)).mp ⟨b, hb⟩
    exact absurd this.1 (by decide)
  have isMain : branch? "refs/remotes/a/main " = some ⟨"a", "main"⟩ :=
    (main _).mpr ⟨by decide, by decide, by decide, by decide, by decide⟩
  have isFix : branch? "refs/remotes/a/b/fix " = some ⟨"a/b", "fix"⟩ :=
    (fix _).mpr ⟨by decide, by decide, by decide, by decide, by decide⟩
  have noGone : branch? "refs/remotes/gone/x " = none := by
    rw [Option.eq_none_iff_forall_ne_some]
    intro b hb
    have := (gone "gone/x" (by decide)).mp ⟨b, hb⟩
    exact absurd this.2 (by decide)
  refine ⟨?_, adds.2.2.1 _ isFix⟩
  have run := congrArg Prod.fst run
  simpa only [List.filterMap_cons_none noHead, List.filterMap_cons_some isMain,
    List.filterMap_cons_some isFix, List.filterMap_cons_none noGone, List.filterMap_nil] using run

end HistoryGuard.Git
