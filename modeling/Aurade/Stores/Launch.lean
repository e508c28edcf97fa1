import Aurade.Stores.Tags

/-!
# How a program is launched

The arguments, the variables and the terminal of a program stand in one attribute of its file, a line
each. `set_launch_options` refuses an argument with a newline and leaves a variable out that is no
assignment or has one; `launch_options` reads the lines, trimmed. So what comes back has lost the white
space that an argument or a variable ends in (`parse_render`), and `setLaunchOptions_iff` says which
options come back as they were set.
-/

namespace Aurade.Stores.Launch

open Fs

/-! ## The options and their lines -/

/-- `LaunchOptions`. -/
structure LaunchOptions where
  args : List Text := []
  env : List Text := []
  inTerminal : Bool := false
  deriving DecidableEq

/-- The byte between a name and its value. -/
abbrev equals : UInt8 := 61

/-- What `parse_launch_options` does with a line. -/
def parseLine (out : LaunchOptions) (line : Text) : LaunchOptions :=
  match line.trim.splitOnce equals (by decide) with
  | none => out
  | some (key, value) =>
    if key.val = text "arg" then { out with args := out.args ++ [value] }
    else if key.val = text "env" then
      if equals ∈ value.val then { out with env := out.env ++ [value] } else out
    else if key.val = text "terminal" then { out with inTerminal := value.val = text "true" }
    else out

/-- `parse_launch_options`. -/
def parseLaunchOptions (t : Text) : LaunchOptions := t.lines.foldl parseLine {}

/-- `launch_options`. -/
def launchOptions (f : Files) (path : Bytes) : Except Error LaunchOptions :=
  (Xattr.getString f path).map fun t => (t.map parseLaunchOptions).getD {}

/-- The variable is written: it is an assignment, and on one line. -/
def Assigns (pair : Text) : Prop := equals ∈ pair.val ∧ newline ∉ pair.val

instance : DecidablePred Assigns := fun _ => inferInstanceAs (Decidable (_ ∧ _))

/-- The line of a value under a key. -/
def lineOf (key : Bytes) (value : Text) : Bytes := key ++ equals :: value.val

/-- The lines that `set_launch_options` writes. -/
def linesOf (o : LaunchOptions) : List Bytes :=
  o.args.map (lineOf (text "arg")) ++ (o.env.filter Assigns).map (lineOf (text "env")) ++
    if o.inTerminal then [text "terminal=true"] else []

/-- The text that `set_launch_options` writes. -/
def render (o : LaunchOptions) : Bytes := (linesOf o).flatMap (· ++ [newline])

/-- `set_launch_options`. -/
def setLaunchOptions (refuse : Option Refusal) (path : Bytes) (o : LaunchOptions) :
    Act Files Error Unit :=
  if o = {} then Xattr.put refuse path none
  else if ∃ arg ∈ o.args, newline ∈ arg.val then
    Act.fail (.badRequest [.str "an argument cannot contain a newline"])
  else if Xattr.maxValue < (render o).length then
    Act.fail (.badRequest [.num (render o).length,
      .str " bytes is more than an extended attribute can hold"])
  else Xattr.put refuse path (some (render o))

/-! ## What is read back -/

section

variable {o : LaunchOptions} {ls : List Bytes} {t v : Text}

/-- Lines that are written one by one are read one by one. -/
theorem lines_flatMap (h : ∀ l ∈ ls, newline ∉ l) : lines (ls.flatMap (· ++ [newline])) = ls.map chomp := by
  induction ls with
  | nil => rfl
  | cons l ls ih =>
    obtain ⟨hl, hls⟩ := List.forall_mem_cons.1 h
    rw [List.flatMap_cons, List.append_assoc, List.singleton_append, lines_append_newline,
      List.splitOn_eq_singleton hl, ih hls]
    rfl

/-- A value without the white space it ends in. -/
def tidy (v : Text) : Text := ⟨trimEnd v.val, valid_trimEnd v.property⟩

/-- A line that is written is read as its key and its value, tidied. -/
theorem splitOnce_line {key : Text} {c : UInt8} {rest : Bytes} (hkey : key.val = c :: rest) (hc : Solid c)
    (heq : equals ∉ key.val) (ht : t.val = chomp (lineOf key.val v)) :
    t.trim.splitOnce equals (by decide) = some (key, tidy v) := by
  refine Text.splitOnce_of_val _ ?_
  have hline : trimBytes (lineOf key.val v) = key.val ++ equals :: trimEnd v.val := by
    rw [lineOf, hkey, List.cons_append, trimBytes, trimStart_cons hc, ← List.cons_append,
      trimEnd_append_cons (by decide)]
  change splitOnce equals (trimBytes t.val) = _
  rw [ht, trimBytes_chomp, hline]
  exact splitOnce_append heq _

/-- An argument is read. -/
theorem parseLine_arg (out : LaunchOptions) (ht : t.val = chomp (lineOf (text "arg") v)) :
    parseLine out t = { out with args := out.args ++ [tidy v] } := by
  have hcut := @splitOnce_line t v ⟨text "arg", by decide⟩ 97 [114, 103] (by decide) (by decide)
    (by decide) ht
  rw [parseLine, hcut]
  rfl

/-- A variable is read. -/
theorem parseLine_env (out : LaunchOptions) (hv : equals ∈ v.val)
    (ht : t.val = chomp (lineOf (text "env") v)) :
    parseLine out t = { out with env := out.env ++ [tidy v] } := by
  have hcut := @splitOnce_line t v ⟨text "env", by decide⟩ 101 [110, 118] (by decide) (by decide)
    (by decide) ht
  have hkept : equals ∈ (tidy v).val := by
    obtain ⟨a, b, hab⟩ := List.append_of_mem hv
    change equals ∈ trimEnd v.val
    rw [hab, trimEnd_append_cons (by decide)]
    exact List.mem_append_right _ List.mem_cons_self
  rw [parseLine, hcut]
  exact if_pos hkept

/-- The flag is read. -/
theorem parseLine_terminal (out : LaunchOptions) (ht : t.val = chomp (text "terminal=true")) :
    parseLine out t = { out with inTerminal := true } := by
  have hcut := @splitOnce_line t ⟨text "true", by decide⟩ ⟨text "terminal", by decide⟩ 116
    [101, 114, 109, 105, 110, 97, 108] (by decide) (by decide) (by decide) ht
  have htrue : (tidy ⟨text "true", by decide⟩).val = text "true" := by decide
  rw [parseLine, hcut]
  simp only [htrue, decide_true]
  rfl

/-- The lines of the arguments are read in order. -/
theorem foldl_args {vs ts : List Text} (out : LaunchOptions)
    (h : ts.map Subtype.val = vs.map fun v => chomp (lineOf (text "arg") v)) :
    ts.foldl parseLine out = { out with args := out.args ++ vs.map tidy } := by
  induction vs generalizing ts out with
  | nil =>
    rw [List.map_eq_nil_iff.1 h]
    simp
  | cons v vs ih =>
    obtain ⟨t, ts, rfl, ht, hts⟩ := List.map_eq_cons_iff.1 h
    rw [List.foldl_cons, parseLine_arg out ht, ih _ hts]
    simp

/-- The lines of the variables are read in order. -/
theorem foldl_env {vs ts : List Text} (out : LaunchOptions) (hvs : ∀ v ∈ vs, Assigns v)
    (h : ts.map Subtype.val = vs.map fun v => chomp (lineOf (text "env") v)) :
    ts.foldl parseLine out = { out with env := out.env ++ vs.map tidy } := by
  induction vs generalizing ts out with
  | nil =>
    rw [List.map_eq_nil_iff.1 h]
    simp
  | cons v vs ih =>
    obtain ⟨hv, hvs⟩ := List.forall_mem_cons.1 hvs
    obtain ⟨t, ts, rfl, ht, hts⟩ := List.map_eq_cons_iff.1 h
    rw [List.foldl_cons, parseLine_env out hv.1 ht, ih _ hvs hts]
    simp

/-- The lines that are written have no newline in them. -/
theorem newline_notMem_linesOf (hargs : ∀ arg ∈ o.args, newline ∉ arg.val) :
    ∀ l ∈ linesOf o, newline ∉ l := by
  have hline : ∀ {key : Bytes} {v : Text}, newline ∉ key → newline ∉ v.val → newline ∉ lineOf key v := by
    intro key v hkey hv hmem
    rcases List.mem_append.1 hmem with h | h
    · exact hkey h
    · rcases List.mem_cons.1 h with h | h
      · exact absurd h (by decide)
      · exact hv h
  intro l hl
  rcases List.mem_append.1 hl with hl | hl
  · rcases List.mem_append.1 hl with hl | hl
    · obtain ⟨v, hv, rfl⟩ := List.mem_map.1 hl
      exact hline (by decide) (hargs v hv)
    · obtain ⟨v, hv, rfl⟩ := List.mem_map.1 hl
      exact hline (by decide) (of_decide_eq_true (List.mem_filter.1 hv).2).2
  · split_ifs at hl
    · rw [List.mem_singleton.1 hl]
      decide
    · cases hl

theorem valid_render (o : LaunchOptions) : Utf8.valid (render o) = true := by
  have hlines : ∀ l ∈ linesOf o, Utf8.valid l = true := by
    have hline : ∀ {key : Bytes} {v : Text}, Utf8.valid key = true → Utf8.valid (lineOf key v) = true := by
      intro key v hkey
      rw [lineOf, Utf8.valid_append_ascii (by decide), hkey, v.property]
      rfl
    intro l hl
    rcases List.mem_append.1 hl with hl | hl
    · rcases List.mem_append.1 hl with hl | hl
      · obtain ⟨v, -, rfl⟩ := List.mem_map.1 hl
        exact hline (by decide)
      · obtain ⟨v, -, rfl⟩ := List.mem_map.1 hl
        exact hline (by decide)
    · split_ifs at hl
      · rw [List.mem_singleton.1 hl]
        decide
      · cases hl
  rw [render]
  generalize linesOf o = ls at hlines
  induction ls with
  | nil => rfl
  | cons l ls ih =>
    obtain ⟨hl, hls⟩ := List.forall_mem_cons.1 hlines
    rw [List.flatMap_cons, List.append_assoc, List.singleton_append,
      Utf8.valid_append_ascii (by decide), hl, ih hls]
    rfl

/-- **What is read back**: the arguments, the variables that are assignments and the flag, each value
without the white space it ended in. -/
theorem parse_render (hargs : ∀ arg ∈ o.args, newline ∉ arg.val) :
    parseLaunchOptions ⟨render o, valid_render o⟩ =
      { args := o.args.map tidy, env := (o.env.filter Assigns).map tidy, inTerminal := o.inTerminal } := by
  have hlines := Text.map_val_lines ⟨render o, valid_render o⟩
  rw [show Aurade.lines (render o) = _ from lines_flatMap (newline_notMem_linesOf hargs), linesOf,
    List.map_append, List.map_append] at hlines
  obtain ⟨front, last, hfront, hfl, hlast⟩ := List.map_eq_append_iff.1 hlines
  obtain ⟨as, es, rfl, has, hes⟩ := List.map_eq_append_iff.1 hfl
  rw [List.map_map] at has hes
  have henv : ∀ v ∈ o.env.filter Assigns, Assigns v := fun v hv =>
    of_decide_eq_true (List.mem_filter.1 hv).2
  rw [parseLaunchOptions, hfront, List.foldl_append, List.foldl_append, foldl_args _ has,
    foldl_env _ henv hes]
  cases hterm : o.inTerminal with
  | false =>
    rw [hterm] at hlast
    rw [List.map_eq_nil_iff.1 hlast]
    rfl
  | true =>
    rw [hterm] at hlast
    obtain ⟨t, ts, rfl, ht, hts⟩ := List.map_eq_cons_iff.1 hlast
    rw [List.map_eq_nil_iff.1 hts]
    rw [List.foldl_cons, List.foldl_nil, parseLine_terminal _ ht]
    rfl

/-! ## Setting and reading back -/

/-- The call is refused: by the kernel, for a newline in an argument, or for the length of it all. -/
def Refused (f : Files) (refuse : Option Refusal) (path : Bytes) (o : LaunchOptions) : Prop :=
  refuse.isSome ∨ f.node path = none ∨
    (o ≠ {} ∧ ((∃ arg ∈ o.args, newline ∈ arg.val) ∨ Xattr.maxValue < (render o).length))

/-- The lines carry the options: no value ends in white space, and each variable is written. -/
def Carried (o : LaunchOptions) : Prop :=
  (∀ arg ∈ o.args, trimEnd arg.val = arg.val) ∧
    ∀ pair ∈ o.env, Assigns pair ∧ trimEnd pair.val = pair.val

/-- The options are set: the call is refused and the file is as it was, or they are read back. -/
def Settled (f : Files) (refuse : Option Refusal) (path : Bytes) (o : LaunchOptions) : Prop :=
  (∃ e, setLaunchOptions refuse path o f = (.error e, f)) ∨
    ∃ f', setLaunchOptions refuse path o f = (.ok (), f') ∧ launchOptions f' path = .ok o

theorem tidy_eq_self_iff : tidy v = v ↔ trimEnd v.val = v.val := Subtype.ext_iff

theorem map_tidy_eq_self_iff {vs : List Text} : vs.map tidy = vs ↔ ∀ v ∈ vs, trimEnd v.val = v.val := by
  conv_lhs => rhs; rw [← List.map_id vs]
  rw [List.map_inj_left]
  exact forall₂_congr fun v _ => tidy_eq_self_iff

/-- What is read back is what was set just where the lines carry it. -/
theorem tidied_eq_iff :
    ({ args := o.args.map tidy, env := (o.env.filter Assigns).map tidy, inTerminal := o.inTerminal } :
      LaunchOptions) = o ↔ Carried o := by
  obtain ⟨args, env, inTerminal⟩ := o
  rw [LaunchOptions.mk.injEq, map_tidy_eq_self_iff]
  refine and_congr Iff.rfl ?_
  rw [and_iff_left rfl]
  constructor
  · intro h
    have hall : env.filter Assigns = env := by
      have hlen := congrArg List.length h
      rw [List.length_map] at hlen
      exact List.filter_sublist.eq_of_length hlen
    rw [hall, map_tidy_eq_self_iff] at h
    intro pair hpair
    have hmem : pair ∈ env.filter Assigns := by rwa [hall]
    exact ⟨of_decide_eq_true (List.mem_filter.1 hmem).2, h pair hpair⟩
  · intro h
    have hall : env.filter Assigns = env :=
      List.filter_eq_self.2 fun pair hpair => decide_eq_true (h pair hpair).1
    rw [hall]
    exact map_tidy_eq_self_iff.2 fun pair hpair => (h pair hpair).2

variable {f : Files} {refuse : Option Refusal} {path : Bytes}

/-- An attribute that is put is what is read. -/
theorem getString_put {i : ℕ} (hnode : f.node path = some i) (value : Option Bytes) :
    Xattr.put none path value f =
        (.ok (), { f with attr := Function.update f.attr i (.ok value) }) ∧
      Xattr.getString { f with attr := Function.update f.attr i (.ok value) } path =
        .ok (value.map Text.lossy) := by
  constructor
  · simp only [Xattr.put, hnode]
  · simp only [Xattr.getString, Xattr.get, hnode, Function.update_self]
    rfl

/-- The attribute is not put where the kernel refuses or there is no file. -/
theorem put_refused (h : refuse.isSome ∨ f.node path = none) (value : Option Bytes) :
    ∃ e, Xattr.put refuse path value f = (.error e, f) := by
  rcases refuse with _ | r
  · have hnode : f.node path = none := h.resolve_left (by decide)
    refine ⟨Xattr.map path (.errno .noent), ?_⟩
    simp only [Xattr.put, hnode]
  · exact ⟨_, rfl⟩

/-- A call that is refused leaves the file as it is. -/
theorem error_of_refused (h : Refused f refuse path o) :
    ∃ e, setLaunchOptions refuse path o f = (.error e, f) := by
  unfold setLaunchOptions
  split_ifs with hdefault hnewline hlong
  · rcases h with h | h | h
    · exact put_refused (Or.inl h) none
    · exact put_refused (Or.inr h) none
    · exact absurd hdefault h.1
  · exact ⟨_, rfl⟩
  · exact ⟨_, rfl⟩
  · rcases h with h | h | ⟨-, h | h⟩
    · exact put_refused (Or.inl h) _
    · exact put_refused (Or.inr h) _
    · exact absurd h hnewline
    · exact absurd h hlong

/-- A call that is not refused is read back as the lines have it. -/
theorem read_of_not_refused (h : ¬Refused f refuse path o) :
    ∃ f', setLaunchOptions refuse path o f = (.ok (), f') ∧ launchOptions f' path =
      .ok { args := o.args.map tidy, env := (o.env.filter Assigns).map tidy, inTerminal := o.inTerminal } := by
  obtain ⟨hrefuse, hnode, hfits⟩ : ¬refuse.isSome ∧ f.node path ≠ none ∧ _ := by
    simpa only [Refused, not_or] using h
  obtain rfl : refuse = none := Option.not_isSome_iff_eq_none.1 hrefuse
  obtain ⟨i, hi⟩ := Option.ne_none_iff_exists'.1 hnode
  unfold setLaunchOptions launchOptions
  by_cases hdefault : o = {}
  · obtain ⟨hput, hread⟩ := getString_put hi none
    refine ⟨_, (congrFun (if_pos hdefault) f).trans hput, ?_⟩
    rw [hread, hdefault]
    rfl
  · have hfits : ¬((∃ arg ∈ o.args, newline ∈ arg.val) ∨ Xattr.maxValue < (render o).length) :=
      fun h => hfits ⟨hdefault, h⟩
    obtain ⟨hnewline, hlong⟩ := not_or.1 hfits
    obtain ⟨hput, hread⟩ := getString_put hi (some (render o))
    rw [if_neg hdefault, if_neg hnewline, if_neg hlong]
    refine ⟨_, hput, ?_⟩
    have hlossy : Text.lossy (render o) = ⟨render o, valid_render o⟩ :=
      Text.lossy_val ⟨render o, valid_render o⟩
    have hargs : ∀ arg ∈ o.args, newline ∉ arg.val := fun arg harg hmem => hnewline ⟨arg, harg, hmem⟩
    rw [hread, Option.map_some, hlossy, ← parse_render hargs]
    rfl

/-- **A launch setting** is refused with the file as it was, or read back as it was set, just where it is
refused or its lines carry it. -/
theorem setLaunchOptions_iff (f : Files) (refuse : Option Refusal) (path : Bytes) (o : LaunchOptions) :
    Settled f refuse path o ↔ Refused f refuse path o ∨ Carried o := by
  by_cases hrefused : Refused f refuse path o
  · exact iff_of_true (Or.inl (error_of_refused hrefused)) (Or.inl hrefused)
  obtain ⟨f', hrun, hread⟩ := read_of_not_refused hrefused
  rw [← tidied_eq_iff, or_iff_right hrefused]
  constructor
  · rintro (⟨e, herror⟩ | ⟨f'', hrun', hread'⟩)
    · rw [hrun] at herror
      cases herror
    · rw [hrun] at hrun'
      cases hrun'
      exact Except.ok.inj (hread.symm.trans hread')
  · intro h
    exact Or.inr ⟨f', hrun, by rw [hread, h]⟩

end

/-- One file, and nothing set on it. -/
def oneFile : Files where
  node _ := some 0
  attr _ := .ok none

/-- An argument that ends in a space. -/
def spacedArg : LaunchOptions := { args := [⟨text "--title=a ", by decide⟩] }

/-- It comes back without the space. -/
theorem setLaunchOptions_spaced : ¬Settled oneFile none [] spacedArg := by
  have hnot : ¬Refused oneFile none [] spacedArg := by
    rintro (h | h | ⟨-, h | h⟩)
    · exact absurd h (by decide)
    · cases h
    · exact absurd h (by decide)
    · exact absurd h (by decide)
  obtain ⟨f', hrun, hread⟩ := read_of_not_refused hnot
  rintro (⟨e, herror⟩ | ⟨f'', hrun', hread'⟩)
  · rw [hrun] at herror
    cases herror
  · rw [hrun] at hrun'
    cases hrun'
    have hsame := Except.ok.inj (hread.symm.trans hread')
    exact absurd hsame (by decide)

end Aurade.Stores.Launch
