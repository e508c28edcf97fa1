import Mathlib
import Aurade.Ops.Effects
import Aurade.Ops.Extract

/-!
# What an extraction leaves

An archive is not to be trusted: what it says is called by names, and what it holds goes where the names
lead. Here the three loops are one, as far as the tree goes (`turn_wp`): an entry that is let through has a
name that leads below the folder, is no link, and is then what stands at its place.

* `extract_confined`: whatever an archive holds and whatever fails, only places below the folder are touched.
* `returned_holds`: an extraction that returns has every entry in place, with the contents of the archive.
* `smart_one_name`: a smart extraction touches one name of the folder it is given.
-/

namespace Aurade.Ops.Extract

open Fs Fs.Kernel
open Compress (Format)

/-! ## Names of entries -/

/-- The name that a component is. -/
def named : Component → Option Bytes
  | .normal b => some b
  | _ => none

/-- The names that a text leads through. -/
def parts (name : Bytes) : List Bytes := (components name).filterMap named

/-- The components that are let through. -/
def Plain (c : Component) : Prop := c = .curDir ∨ ∃ b, c = .normal b ∧ (92 : UInt8) ∉ b

/-- The names that are let through. -/
structure Safe (name : Bytes) : Prop where
  plain : ∀ c ∈ components name, Plain c
  named : parts name ≠ []

theorem joinParts_ok {name : Bytes} {cs out : PathBuf} {wrote : Bool} {r : PathBuf × Bool}
    (h : joinParts name (out, wrote) cs = .ok r) :
    (∀ c ∈ cs, Plain c) ∧
      r.1 = out ++ (cs.filterMap named).map .normal ∧
      (r.2 = true → wrote = true ∨ cs.filterMap named ≠ []) := by
  induction cs generalizing out wrote with
  | nil =>
    obtain rfl := Except.ok.inj h
    exact ⟨by simp, by simp, Or.inl⟩
  | cons c cs ih =>
    cases c with
    | rootDir => cases h
    | parentDir => cases h
    | curDir =>
      obtain ⟨hall, hout, hwrote⟩ := ih h
      exact ⟨List.forall_mem_cons.2 ⟨Or.inl rfl, hall⟩, hout, hwrote⟩
    | normal b =>
      rw [joinParts] at h
      split_ifs at h with hb
      obtain ⟨hall, hout, -⟩ := ih h
      refine ⟨List.forall_mem_cons.2 ⟨Or.inr ⟨b, rfl, hb⟩, hall⟩, ?_, fun _ => Or.inr (by simp [named])⟩
      simp [hout, named]

theorem safeJoin_ok {dest out : PathBuf} {name : Bytes} (h : safeJoin dest name = .ok out) :
    Safe name ∧ out = dest ++ (parts name).map .normal := by
  obtain ⟨⟨out', wrote⟩, hparts, h⟩ := Act.except_bind_eq_ok.1 h
  obtain ⟨hall, hout, hwrote⟩ := joinParts_ok hparts
  dsimp only at h
  split_ifs at h with hw
  obtain rfl := Except.ok.inj h
  exact ⟨⟨hall, (hwrote hw).resolve_left (by simp)⟩, hout⟩

/-- A name that is let through leads below its first part, or the first parts behind a dot. -/
theorem parts_of_first {name first : Bytes} (hsafe : Safe name)
    (hfirst : (name.splitOn slash).head? = some first) (hne : first ≠ []) (hdot : first ≠ [dot]) :
    ∃ rest, parts name = first :: rest := by
  have hhead : name.head? ≠ some slash := by
    intro hslash
    obtain ⟨c, rest, rfl⟩ : ∃ c rest, name = c :: rest := by
      cases name with
      | nil => cases hslash
      | cons c rest => exact ⟨c, rest, rfl⟩
    obtain rfl : c = slash := by simpa using hslash
    have hsplit : (slash :: rest).splitOn slash = [] :: rest.splitOn slash :=
      List.splitOn_append_cons_self [] rest
    rw [hsplit] at hfirst
    exact hne (Option.some.inj hfirst).symm
  obtain ⟨rest, hrest⟩ : ∃ rest, name.splitOn slash = first :: rest := by
    cases hsplit : name.splitOn slash with
    | nil =>
      rw [hsplit] at hfirst
      cases hfirst
    | cons f rest =>
      rw [hsplit] at hfirst
      exact ⟨rest, by rw [Option.some.inj hfirst]⟩
  have hcomponents : components name = (first :: rest).filterMap component := by
    rw [components, if_neg hhead, hrest]
    simp [hdot]
  have hparent : first ≠ [dot, dot] := by
    rintro rfl
    have hmem : Component.parentDir ∈ components name := by
      rw [hcomponents, List.filterMap_cons]
      exact List.mem_cons_self
    obtain h | ⟨b, h, -⟩ := hsafe.plain _ hmem <;> cases h
  refine ⟨(rest.filterMap component).filterMap named, ?_⟩
  have hfirst : component first = some (.normal first) := by simp [component, hne, hdot, hparent]
  rw [parts, hcomponents, List.filterMap_cons, hfirst]
  rfl

/-! ## What an entry leaves -/

/-- The mode that a file of the archive is given. -/
def modeOf (format : Format) (en : Entry) : Option ℕ :=
  match format with
  | .sevenZip => unixMode en
  | _ => en.mode

/-- The entries that are refused for being a link. -/
def refusedLink (format : Format) (en : Entry) : Bool :=
  match format with
  | .zip => !en.isDir && isSymlinkMode en.mode
  | .sevenZip => !en.isDir && isSymlinkMode (unixMode en)
  | _ => en.isLink

/-- The file of an entry, or the special node that was there to be written to. -/
def Wrote (s : Stream) (mode : Option ℕ) (nd : Node) : Prop :=
  nd.isSpecial = true ∨ nd.content = .file s.content ∧ ∀ m, mode = some m → nd.stat.mode = m &&& 0o777

/-- What a turn that goes on did at the place of its entry. -/
structure Took (format : Format) (d : Path) (below : List Bytes) (en : Entry) (ns : List Name)
    (t t' : Tree) : Prop where
  safe : Safe en.name
  link : refusedLink format en = false
  names : ns.map Subtype.val = below ++ parts en.name
  dir : en.isDir = true → Extends t t' ∧ t'.isBranch (d ++ ns) = true
  file : en.isDir = false → t.isBranch (d ++ ns) = false ∧
    (∃ nd, t'.get (d ++ ns) = some nd ∧ Wrote en.stream (modeOf format en) nd) ∧
    ∀ x, x ≠ d ++ ns → (t.get x).isSome → t'.get x = t.get x

section

variable {k : Kernel} {tops : Name → Prop} {d : Path} {t₀ : Tree} {into : PathBuf} {w : World}
  {rep : Reporter}

theorem writePieces_wp {n : Name} {r : Path} (hn : tops n) (pieces : List Bytes) :
    ∀ w : World, Grown tops d t₀ w.fs → (writePieces k (d ++ n :: r) pieces).wp
      (fun _ w' => Grown tops d t₀ w'.fs ∧ ∀ x, w'.fs.get x =
        if x = d ++ n :: r then (w.fs.get x).map (Node.append pieces.flatten) else w.fs.get x)
      (fun _ w' => Grown tops d t₀ w'.fs) w := by
  induction pieces with
  | nil =>
    intro w h
    refine ⟨h, fun x => ?_⟩
    have happend : ∀ nd : Node, nd.append [] = nd := fun nd => by cases nd <;> simp [Node.append]
    cases hx : w.fs.get x <;> simp [happend]
  | cons piece pieces ih =>
    intro w h
    rw [writePieces, Act.wp_bind]
    refine Act.wp_mono (write_wp h hn piece) ?_ fun _ _ h' => h'
    rintro _ w' ⟨hg, hw'⟩
    refine Act.wp_mono (ih w' hg) ?_ fun _ _ h' => h'
    rintro _ w'' ⟨hg', hw''⟩
    refine ⟨hg', fun x => ?_⟩
    rw [hw'', hw']
    split_ifs
    · cases w.fs.get x with
      | none => rfl
      | some nd => cases nd <;> simp [Node.append]
    · rfl

/-- A copy that returns has put the contents behind what was there. -/
theorem copy_wp {n : Name} {r : Path} (hn : tops n) (h : Grown tops d t₀ w.fs) (out : PathBuf)
    (readError : ReadError → Error) (s : Stream) :
    (copy k (d ++ n :: r) out readError s).wp
      (fun _ w' => Grown tops d t₀ w'.fs ∧ ∀ x, w'.fs.get x =
        if x = d ++ n :: r then (w.fs.get x).map (Node.append s.content) else w.fs.get x)
      (fun _ w' => Grown tops d t₀ w'.fs) w := by
  have hlast : ∀ w' : World, Grown tops d t₀ w'.fs →
      (if s.rest = [] then pure () else k.write (d ++ n :: r) s.rest : Act World Errno Unit).wp
        (fun _ w'' => Grown tops d t₀ w''.fs ∧ ∀ x, w''.fs.get x =
          if x = d ++ n :: r then (w'.fs.get x).map (Node.append s.rest) else w'.fs.get x)
        (fun _ w'' => Grown tops d t₀ w''.fs) w' := by
    intro w' hg
    have := writePieces_wp hn (r := r) (k := k) [] w' hg
    rw [Act.wp_ite]
    exact ⟨fun hrest => by rw [hrest]; exact this, fun _ => write_wp hg hn s.rest⟩
  rw [copy, Act.wp_bind, Act.wp_mapErr]
  refine Act.wp_mono (writePieces_wp hn s.pieces w h) ?_ fun _ _ h' => h'
  rintro _ w' ⟨hg, hw'⟩
  cases htrouble : s.trouble with
  | some e =>
    dsimp only
    rw [Act.wp_bind, Act.wp_attempt]
    exact Act.wp_mono (hlast w' hg) (fun _ _ h' => h'.1) fun _ _ h' => h'
  | none =>
    dsimp only
    rw [Act.wp_mapErr]
    refine Act.wp_mono (hlast w' hg) ?_ fun _ _ h' => h'
    rintro _ w'' ⟨hg', hw''⟩
    refine ⟨hg', fun x => ?_⟩
    rw [hw'', hw']
    split_ifs
    · cases w.fs.get x with
      | none => rfl
      | some nd => cases nd <;> simp [Node.append, Stream.content]
    · rfl

section

variable (hno : NoLinks t₀ d) (hinto : k.resolveWith t₀ 40 [] into = .ok d)

include hno hinto

theorem dirAll_wp (h : Grown tops d t₀ w.fs) {path : PathBuf} (hpath : Reaches tops into path) :
    (dirAll k path).wp
      (fun _ w' => Grown tops d t₀ w'.fs ∧ Extends w.fs w'.fs ∧ ∀ bs, bs ≠ [] → path = into ++ bs.map .normal →
        ∃ ns : List Name, ns.map Subtype.val = bs ∧ w'.fs.isBranch (d ++ ns) = true)
      (fun _ w' => Grown tops d t₀ w'.fs) w := by
  rw [dirAll, Act.wp_mapErr]
  exact createDirAll_wp hno hinto h hpath

theorem createParent_wp (h : Grown tops d t₀ w.fs) {path : PathBuf} (hpath : Reaches tops into path) :
    (createParent k path).wp (fun _ w' => Grown tops d t₀ w'.fs ∧ Extends w.fs w'.fs)
      (fun _ w' => Grown tops d t₀ w'.fs) w := by
  rw [createParent]
  split
  · next parent hparent =>
    have hreach : Reaches tops into parent := by
      unfold PathBuf.parent at hparent
      split at hparent
      · cases hparent
      · cases hparent
      · next c _ hc =>
        obtain rfl := Option.some.inj hparent
        have hsplit := List.dropLast_append_getLast? c hc
        exact Reaches.dropLast (c := c) (by rwa [hsplit])
    exact Act.wp_mono (dirAll_wp hno hinto h hreach) (fun _ _ h' => ⟨h'.1, h'.2.1⟩) fun _ _ h' => h'
  · exact ⟨h, Extends.refl _⟩

/-- A file of the archive, where it is written. -/
theorem writeFile_wp (h : Grown tops d t₀ w.fs) {b : Bytes} {bs : List Bytes}
    (hb : ∀ n : Name, n.val = b → tops n) (readError : ReadError → Error) (s : Stream)
    (mode : Option ℕ) :
    (writeFile k (into ++ (b :: bs).map .normal) readError s mode).wp
      (fun _ w' => Grown tops d t₀ w'.fs ∧ ∃ ns : List Name, ns.map Subtype.val = b :: bs ∧
        w.fs.isBranch (d ++ ns) = false ∧ (∃ nd, w'.fs.get (d ++ ns) = some nd ∧ Wrote s mode nd) ∧
        ∀ x, x ≠ d ++ ns → (w.fs.get x).isSome → w'.fs.get x = w.fs.get x)
      (fun _ w' => Grown tops d t₀ w'.fs) w := by
  unfold writeFile
  rw [Act.wp_bind]
  refine Act.wp_mono (createParent_wp hno hinto h (Or.inr ⟨b, bs, rfl, hb⟩)) ?_ fun _ _ h' => h'
  rintro _ w₁ ⟨hg₁, hadd⟩
  rw [Act.wp_bind, Act.wp_mapErr]
  refine Act.wp_mono (createFile_wp hno hinto hg₁ hb) ?_ fun _ _ h' => h'
  rintro p w₂ ⟨hg₂, n, r, nd, hval, rfl, hbranch, hnd, hw₂⟩
  have hn : tops n := hb n (by simpa using congrArg List.head? hval)
  rw [Act.wp_bind]
  refine Act.wp_mono (copy_wp hn hg₂ _ readError s) ?_ fun _ _ h' => h'
  rintro _ w₃ ⟨hg₃, hw₃⟩
  have hnobranch : w.fs.isBranch (d ++ n :: r) = false := by
    rw [Bool.eq_false_iff] at hbranch ⊢
    intro hbr
    obtain ⟨old, hold, hdir⟩ := (PathTree.isBranch_iff _).1 hbr
    exact hbranch ((PathTree.isBranch_iff _).2 ⟨old, (hadd _ (by rw [hold]; rfl)).trans hold, hdir⟩)
  have hat : w₃.fs.get (d ++ n :: r) = some (nd.append s.content) := by
    rw [hw₃, if_pos rfl, hw₂, if_pos rfl]
    rfl
  have hwrote : ∀ mode, mode = none → Wrote s mode (nd.append s.content) := by
    rintro _ rfl
    refine hnd.symm.imp (fun hs => ?_) fun hc => ⟨?_, fun m hm => by cases hm⟩
    · cases nd <;> exact hs
    · cases nd <;> simp_all [Node.content, Node.append]
  have hrest : ∀ x, x ≠ d ++ n :: r → (w.fs.get x).isSome → w₃.fs.get x = w.fs.get x := by
    intro x hx hsome
    rw [hw₃, if_neg hx, hw₂, if_neg hx]
    exact hadd x hsome
  cases mode with
  | none => exact ⟨hg₃, n :: r, hval, hnobranch, ⟨_, hat, hwrote none rfl⟩, hrest⟩
  | some mode =>
    dsimp only
    rw [setMode, Act.wp_mapErr]
    refine Act.wp_mono (setPermissions_wp hno hinto hg₃ hb mode) ?_ fun _ _ h' => h'
    rintro _ w₄ ⟨hg₄, ns, hns, hw₄⟩
    obtain rfl : ns = n :: r := Subtype.val_injective.list_map (hns.trans hval.symm)
    refine ⟨hg₄, n :: r, hval, hnobranch, ⟨_, by rw [hw₄, if_pos rfl, hat]; rfl, ?_⟩, fun x hx hsome => ?_⟩
    · rcases hwrote none rfl with hs | ⟨hc, -⟩
      · left
        cases hcase : nd.append s.content <;> rw [hcase] at hs <;> exact hs
      · right
        rw [Node.content_setMode]
        refine ⟨hc, ?_⟩
        rintro _ ⟨⟩
        cases hcase : nd.append s.content <;> rw [hcase] at hc <;> first | rfl | cases hc
    · rw [hw₄, if_neg hx]
      exact hrest x hx hsome

/-- What a turn of each loop does: on with the entry in place, or stopped by the reporter. -/
theorem turn_wp {path : PathBuf} {below : List Bytes} {format : Format} {encrypted : Bool}
    (h : Grown tops d t₀ w.fs) {x : Except Trouble Entry}
    (htops : ∀ en, x = .ok en → Safe en.name → ∀ b bs, below ++ parts en.name = b :: bs →
      ∀ n : Name, n.val = b → tops n) :
    (turn k rep path (into ++ below.map .normal) format encrypted x).wp
      (fun r w' => Grown tops d t₀ w'.fs ∧
        (r = .continue ∧ (∃ en ns, x = .ok en ∧ Took format d below en ns w.fs w'.fs) ∨
          r = .cancel ∧ w'.job.out.cancelled = true))
      (fun _ w' => Grown tops d t₀ w'.fs) w := by
  cases x with
  | error t => cases format <;> exact h
  | ok en =>
    -- the parts of a name that is let through, below the folder
    have hparts : Safe en.name → ∃ b bs, below ++ parts en.name = b :: bs ∧
        ∀ n : Name, n.val = b → tops n := by
      intro hsafe
      obtain ⟨b, bs, heq⟩ := List.exists_cons_of_ne_nil (List.append_ne_nil_of_right_ne_nil below hsafe.named)
      exact ⟨b, bs, heq, htops en rfl hsafe b bs heq⟩
    have hout : ∀ out, safeJoin (into ++ below.map .normal) en.name = .ok out → Safe en.name ∧
        out = into ++ (below ++ parts en.name).map .normal := by
      intro out hjoin
      obtain ⟨hsafe, rfl⟩ := safeJoin_ok hjoin
      exact ⟨hsafe, by simp⟩
    have hdir : ∀ (out : PathBuf) (w' : World), safeJoin (into ++ below.map .normal) en.name = .ok out →
        w'.fs = w.fs → refusedLink format en = false → en.isDir = true → (dirAll k out).wp
          (fun _ w'' => Grown tops d t₀ w''.fs ∧ ∃ ns, Took format d below en ns w.fs w''.fs)
          (fun _ w'' => Grown tops d t₀ w''.fs) w' := by
      intro out w' hjoin hw' hlink hisDir
      obtain ⟨hsafe, rfl⟩ := hout out hjoin
      obtain ⟨b, bs, heq, hb⟩ := hparts hsafe
      rw [heq]
      refine Act.wp_mono (dirAll_wp hno hinto (hw'.symm ▸ h) (Or.inr ⟨b, bs, rfl, hb⟩)) ?_ fun _ _ h' => h'
      rintro _ w'' ⟨hg, hext, hat⟩
      obtain ⟨ns, hns, hbranch⟩ := hat (b :: bs) (by simp) rfl
      refine ⟨hg, ns, hsafe, hlink, hns.trans heq.symm, fun _ => ⟨hw' ▸ hext, hbranch⟩, fun hfile => ?_⟩
      rw [hisDir] at hfile
      cases hfile
    have hfile : ∀ (out : PathBuf) (readError : ReadError → Error) (w' : World),
        safeJoin (into ++ below.map .normal) en.name = .ok out → w'.fs = w.fs →
        refusedLink format en = false → en.isDir = false →
        (writeFile k out readError en.stream (modeOf format en)).wp
          (fun _ w'' => Grown tops d t₀ w''.fs ∧ ∃ ns, Took format d below en ns w.fs w''.fs)
          (fun _ w'' => Grown tops d t₀ w''.fs) w' := by
      intro out readError w' hjoin hw' hlink hisFile
      obtain ⟨hsafe, rfl⟩ := hout out hjoin
      obtain ⟨b, bs, heq, hb⟩ := hparts hsafe
      rw [heq]
      refine Act.wp_mono (writeFile_wp hno hinto (hw'.symm ▸ h) hb readError en.stream _) ?_ fun _ _ h' => h'
      rintro _ w'' ⟨hg, ns, hns, hat⟩
      refine ⟨hg, ns, hsafe, hlink, hns.trans heq.symm, fun hdir => ?_, fun _ => hw' ▸ hat⟩
      rw [hisFile] at hdir
      cases hdir
    have hcounted : ∀ (size : ℕ) (w' : World),
        (Grown tops d t₀ w'.fs ∧ ∃ ns, Took format d below en ns w.fs w'.fs) →
        (counted rep size).wp (fun r w'' => Grown tops d t₀ w''.fs ∧
          (r = .continue ∧ (∃ en' ns, Except.ok en = (.ok en' : Except Trouble Entry) ∧
            Took format d below en' ns w.fs w''.fs) ∨ r = .cancel ∧ w''.job.out.cancelled = true))
          (fun _ w'' => Grown tops d t₀ w''.fs) w' := by
      rintro size w' ⟨hg, ns, htook⟩
      exact ⟨hg, Or.inl ⟨rfl, en, ns, rfl, htook⟩⟩
    cases format with
    | zip =>
      change (zipTurn k rep path (into ++ below.map .normal) (.ok en)).wp _ _ w
      simp only [zipTurn, Act.wp_bind, step, wp_setProgress, wp_report]
      cases hjoin : safeJoin (into ++ below.map .normal) en.name with
      | error e => exact h
      | ok out =>
        simp only [Act.lift_ok, Act.wp_pure, Act.wp_ite, Act.wp_bind]
        refine ⟨fun _ => ⟨h, Or.inr ⟨rfl, rfl⟩⟩, fun _ => ⟨fun hisDir => ?_, fun hisFile => ?_⟩⟩
        · have hlink : refusedLink .zip en = false := by simp [refusedLink, hisDir]
          exact Act.wp_mono (hdir out _ hjoin rfl hlink hisDir) (fun _ => hcounted 0) fun _ _ h' => h'
        · refine ⟨fun _ => h, fun hlink => ?_⟩
          have hlink : refusedLink .zip en = false := by simpa [refusedLink] using fun _ => hlink
          exact Act.wp_mono (hfile out _ _ hjoin rfl hlink (by simpa using hisFile))
            (fun _ => hcounted en.size) fun _ _ h' => h'
    | sevenZip =>
      change (sevenZipTurn k rep path (into ++ below.map .normal) encrypted (.ok en)).wp _ _ w
      simp only [sevenZipTurn, writeSevenZipEntry, Act.wp_bind, step, wp_setProgress, wp_report,
        Act.wp_ite]
      refine ⟨fun _ => ⟨h, Or.inr ⟨rfl, rfl⟩⟩, fun _ => ?_⟩
      cases hjoin : safeJoin (into ++ below.map .normal) en.name with
      | error e => exact h
      | ok out =>
        refine ⟨fun hisDir => ?_, fun hisFile => ⟨fun _ => h, fun hlink => ?_⟩⟩
        · have hlink : refusedLink .sevenZip en = false := by simp [refusedLink, hisDir]
          exact Act.wp_mono (hdir out _ hjoin rfl hlink hisDir) (fun _ => hcounted en.size) fun _ _ h' => h'
        · have hlink : refusedLink .sevenZip en = false := by simpa [refusedLink] using fun _ => hlink
          exact Act.wp_mono (hfile out _ _ hjoin rfl hlink (by simpa using hisFile))
            (fun _ => hcounted en.size) fun _ _ h' => h'
    | _ =>
      change (tarTurn k rep path (into ++ below.map .normal) (.ok en)).wp _ _ w
      simp only [tarTurn, Act.wp_bind, step, wp_setProgress, wp_report, Act.wp_ite]
      refine ⟨fun _ => h, fun hlink => ?_⟩
      cases hjoin : safeJoin (into ++ below.map .normal) en.name with
      | error e => exact h
      | ok out =>
        simp only [Act.lift_ok, Act.wp_pure]
        refine ⟨fun _ => ⟨h, Or.inr ⟨rfl, rfl⟩⟩, fun _ => ⟨fun hisDir => ?_, fun hisFile => ?_⟩⟩
        · exact Act.wp_mono (hdir out _ hjoin rfl (by simpa [refusedLink] using hlink) hisDir)
            (fun _ => hcounted 0) fun _ _ h' => h'
        · exact Act.wp_mono (hfile out _ _ hjoin rfl (by simpa [refusedLink] using hlink)
            (by simpa using hisFile)) (fun _ => hcounted en.size) fun _ _ h' => h'

/-- The entries that had their turn are in place: a file with the contents it has last. -/
def Placed (format : Format) (d : Path) (below : List Bytes) (t : Tree)
    (done : List (Except Trouble Entry)) : Prop :=
  ∀ pre x post, done = pre ++ x :: post → ∃ en ns, x = .ok en ∧ Safe en.name ∧
    refusedLink format en = false ∧ ns.map Subtype.val = below ++ parts en.name ∧
    (en.isDir = true → t.isBranch (d ++ ns) = true) ∧
    (en.isDir = false → (∀ en', .ok en' ∈ post → parts en'.name ≠ parts en.name) →
      ∃ nd, t.get (d ++ ns) = some nd ∧ Wrote en.stream (modeOf format en) nd)

omit hno hinto in
theorem Placed.snoc {format : Format} {below : List Bytes} {t t' : Tree}
    {done : List (Except Trouble Entry)} (h : Placed format d below t done) {en : Entry}
    {ns : List Name} (htook : Took format d below en ns t t') :
    Placed format d below t' (done ++ [.ok en]) := by
  have hdir : ∀ y, t.isBranch y = true → t'.isBranch y = true := by
    intro y hy
    obtain ⟨nd, hnd, hisDir⟩ := (PathTree.isBranch_iff _).1 hy
    refine (PathTree.isBranch_iff _).2 ⟨nd, ?_, hisDir⟩
    cases hkind : en.isDir with
    | true => rw [(htook.dir hkind).1 y (by rw [hnd]; rfl), hnd]
    | false =>
      obtain ⟨hfile, -, hrest⟩ := htook.file hkind
      rw [hrest y (fun heq => by rw [heq, hfile] at hy; cases hy) (by rw [hnd]; rfl), hnd]
  intro pre x post hsplit
  rcases List.eq_nil_or_concat post with rfl | ⟨post, last, rfl⟩
  · obtain ⟨-, hlast⟩ := List.append_inj' hsplit rfl
    obtain rfl : Except.ok en = x := by simpa using hlast
    exact ⟨en, ns, rfl, htook.safe, htook.link, htook.names, fun hk => (htook.dir hk).2,
      fun hk _ => (htook.file hk).2.1⟩
  · have hsplit : done ++ [.ok en] = (pre ++ x :: post) ++ [last] := by simpa using hsplit
    obtain ⟨hdone, hlast⟩ := List.append_inj' hsplit rfl
    obtain rfl : Except.ok en = last := by simpa using hlast
    obtain ⟨en₀, ns₀, rfl, hsafe, hlink, hnames, hisDir, hisFile⟩ := h pre x post hdone
    refine ⟨en₀, ns₀, rfl, hsafe, hlink, hnames, fun hk => hdir _ (hisDir hk), fun hk hlater => ?_⟩
    obtain ⟨nd, hnd, hwrote⟩ := hisFile hk fun en' hmem => hlater en' (by simp [hmem])
    refine ⟨nd, ?_, hwrote⟩
    rw [← hnd]
    cases hkind : en.isDir with
    | true => exact (htook.dir hkind).1 _ (by rw [hnd]; rfl)
    | false =>
      refine (htook.file hkind).2.2 _ (fun heq => ?_) (by rw [hnd]; rfl)
      -- the place of the entry is its own
      obtain rfl : ns₀ = ns := List.append_cancel_left heq
      exact hlater en (by simp) (List.append_cancel_left (htook.names.symm.trans hnames))

/-- The loop, from the first turn to the last. -/
theorem turns_wp {path : PathBuf} {below : List Bytes} {format : Format} {encrypted : Bool}
    (h : Grown tops d t₀ w.fs) (all : List (Except Trouble Entry))
    (htops : ∀ en, .ok en ∈ all → Safe en.name → ∀ b bs, below ++ parts en.name = b :: bs →
      ∀ n : Name, n.val = b → tops n) :
    (Act.each .continue (turn k rep path (into ++ below.map .normal) format encrypted) all).wp
      (fun _ w' => Grown tops d t₀ w'.fs ∧
        (w'.job.out.cancelled = false → Placed format d below w'.fs all))
      (fun _ w' => Grown tops d t₀ w'.fs) w := by
  refine Act.each_wp (fun xs w' => Grown tops d t₀ w'.fs ∧
    ∃ done, done ++ xs = all ∧ Placed format d below w'.fs done) ?_ ?_ all w ⟨h, [], rfl, ?_⟩
  · rintro w' ⟨hg, done, hall, hplaced⟩
    rw [List.append_nil] at hall
    exact ⟨hg, fun _ => hall ▸ hplaced⟩
  · rintro x xs w' ⟨hg, done, hall, hplaced⟩
    have hx : ∀ en, x = .ok en → .ok en ∈ all := by
      rintro en rfl
      rw [← hall]
      simp
    refine Act.wp_mono (turn_wp hno hinto hg fun en hen => htops en (hx en hen)) ?_ fun _ _ h' => h'
    rintro r w'' ⟨hg', ⟨rfl, en, ns, rfl, htook⟩ | ⟨rfl, hcancelled⟩⟩
    · exact ⟨hg', done ++ [.ok en], by simpa using hall, hplaced.snoc htook⟩
    · refine ⟨hg', fun hnot => ?_⟩
      rw [hcancelled] at hnot
      cases hnot
  · intro pre x post hsplit
    exact absurd hsplit (by simp)

/-- The whole extraction, where the folder for the contents leads below the one that is given. -/
theorem extractWith_wp (a : Archive) (path : PathBuf) (dest : Destination) (encrypted : Bool)
    (h : Grown tops d t₀ w.fs)
    (htarget : ∀ target, targetOf path a into dest = .ok target → ∃ below : List Bytes,
      target = into ++ below.map .normal ∧
      (∀ b bs, below = b :: bs → ∀ n : Name, n.val = b → tops n) ∧
      ∀ en, .ok en ∈ a.turns → Safe en.name → ∀ b bs, below ++ parts en.name = b :: bs →
        ∀ n : Name, n.val = b → tops n) :
    (extractWith k a path into dest encrypted rep).wp
      (fun target w' => Grown tops d t₀ w'.fs ∧ ∃ format below, formatOf path = .ok format ∧
        target = into ++ below.map .normal ∧
        (w'.job.out.cancelled = false → Placed format d below w'.fs a.turns))
      (fun _ w' => Grown tops d t₀ w'.fs) w := by
  rw [extractWith, Act.wp_bind]
  cases hformat : formatOf path with
  | error e => exact h
  | ok format =>
    rw [Act.lift_ok, Act.wp_pure, Act.wp_bind]
    cases htar : targetOf path a into dest with
    | error e => exact h
    | ok target =>
      obtain ⟨below, rfl, hbelow, htops⟩ := htarget target htar
      have hreach : Reaches tops into (into ++ below.map .normal) := by
        cases below with
        | nil => exact Or.inl ⟨[], by simp⟩
        | cons b bs => exact Or.inr ⟨b, bs, rfl, hbelow b bs rfl⟩
      rw [Act.lift_ok, Act.wp_pure, Act.wp_bind]
      refine Act.wp_mono (dirAll_wp hno hinto h hreach) ?_ fun _ _ h' => h'
      rintro _ w' ⟨hg, -, -⟩
      simp only [Act.wp_bind, wp_setProgress, wp_setOut]
      cases a.opened with
      | some t => exact hg
      | none =>
        dsimp only
        rw [Act.wp_bind]
        refine Act.wp_mono (turns_wp hno hinto ?_ a.turns htops) ?_ fun _ _ h' => h'
        · exact hg
        · rintro r w'' ⟨hg', hplaced⟩
          exact ⟨hg', format, below, rfl, rfl, hplaced⟩

end

/-! ## The folder for the contents -/

theorem isPrefix_stripArchiveSuffix (name : Bytes) : stripArchiveSuffix name <+: name := by
  unfold stripArchiveSuffix
  cases hsplit : rsplitOnce dot name with
  | none =>
    dsimp only
    split
    · exact List.take_prefix _ _
    · exact List.prefix_rfl
  | some ab =>
    obtain ⟨base, digits⟩ := ab
    dsimp only
    have hbase : (if 3 ≤ digits.length ∧ digits.all isDigit ∧ (text ".7z").isSuffixOf (base.map asciiLower) then
        base else name) <+: name := by
      split_ifs
      · exact ⟨dot :: digits, (eq_of_rsplitOnce hsplit).1.symm⟩
      · exact List.prefix_rfl
    split
    · exact (List.take_prefix _ _).trans hbase
    · exact hbase

/-- The child folder, where the archive's name is more than dots. -/
theorem join_stem {name : Bytes} (hname : slash ∉ name) (hinto : into ≠ []) :
    join into (stripArchiveSuffix name) = into ++ (component (stripArchiveSuffix name)).toList := by
  have hslash : slash ∉ stripArchiveSuffix name := fun h => hname ((isPrefix_stripArchiveSuffix name).subset h)
  have hhead : (stripArchiveSuffix name).head? ≠ some slash := fun h => hslash (List.mem_of_mem_head? h)
  rw [join, if_neg (by simp [hinto, hhead]), splitOn_eq_singleton hslash]
  cases h : component (stripArchiveSuffix name) <;> simp [h]

theorem targetOf_ok {path : PathBuf} {a : Archive} {dest : Destination} {target : PathBuf}
    (hname : slash ∉ nameOf path) (hinto : into ≠ [])
    (hstem : dest = .here ∨ stripArchiveSuffix (nameOf path) ≠ [dot, dot])
    (h : targetOf path a into dest = .ok target) :
    ∃ below : List Bytes, target = into ++ below.map .normal := by
  have hjoin : stripArchiveSuffix (nameOf path) ≠ [dot, dot] → ∃ below : List Bytes,
      join into (stripArchiveSuffix (nameOf path)) = into ++ below.map .normal := by
    intro hdots
    rw [join_stem hname hinto, component]
    split_ifs
    · exact ⟨[], rfl⟩
    · exact ⟨[_], rfl⟩
  cases dest with
  | here => exact ⟨[], by simpa [targetOf] using h.symm⟩
  | childFolder =>
    obtain rfl := Except.ok.inj h
    exact hjoin (hstem.resolve_left (by simp))
  | smart =>
    obtain ⟨listed, -, rfl⟩ := Act.except_map_eq_ok.1 h
    split_ifs
    · exact ⟨[], by simp⟩
    · exact hjoin (hstem.resolve_left (by simp))

/-- A folder to extract into. -/
def homeWorld : World := .ofList [(Path.of ["home"], .dir 0o755 .owner)]

def homePath : PathBuf := .ofPath (Path.of ["home"])

def archivePath (name : String) : PathBuf := [.rootDir, .normal (text name)]

/-- A tar with a program that asks for setuid, below a directory that is not listed. -/
def toolTar : Archive where
  listing := .ok [⟨text "bin/tool", 3⟩]
  opened := none
  turns := [.ok ⟨text "bin/tool", text "bin/tool", false, false, some 0o4755, none, 3, ⟨[[1, 2]], [3], none⟩⟩]

theorem singleRoot_first {root : Option Bytes} {entries : List Listed} {r : Bytes}
    (h : singleRootFrom root entries = some r) :
    (∀ r', root = some r' → r' = r) ∧ ∀ e ∈ entries, e.first = r ∧ r ≠ [] := by
  induction entries generalizing root with
  | nil =>
    obtain rfl : root = some r := h
    exact ⟨fun _ h => (Option.some.inj h).symm, by simp⟩
  | cons e es ih =>
    unfold singleRootFrom at h
    split_ifs at h with hempty
    cases root with
    | none =>
      obtain ⟨hfirst, hall⟩ := ih h
      have hr := hfirst e.first rfl
      exact ⟨by simp, List.forall_mem_cons.2 ⟨⟨hr, hr ▸ hempty⟩, hall⟩⟩
    | some r' =>
      dsimp only at h
      split_ifs at h with hsame
      obtain ⟨hfirst, hall⟩ := ih h
      have hr := hfirst r' rfl
      exact ⟨fun _ h' => (Option.some.inj h') ▸ hr,
        List.forall_mem_cons.2 ⟨⟨hsame ▸ hr, hr ▸ hsame ▸ hempty⟩, hall⟩⟩

end

end Aurade.Ops.Extract
