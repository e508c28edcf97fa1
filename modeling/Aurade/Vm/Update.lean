import Aurade.Foundations.Act
import Aurade.Foundations.Bytes
import Mathlib.Logic.Function.Basic

/-!
# Replacing the program by a newer one

`Apply` and `Replace` over the folder of the program. The steps of a replacement may fail one by one
(`Faults`); one that fails changes nothing, but for a write, which leaves what it wrote, and closing
the new file, which may leave a part of it. The error of closing is dropped, and so a part may be put
where the program is (`apply_iff`).
-/

namespace Aurade.Vm.Update

/-! ## The folder -/

/-- What may be at a path. Of what is no file it is only known which it is. -/
inductive Node
  | file (content : Bytes) (mode : ℕ)
  | other (id : ℕ)
  deriving DecidableEq

abbrev Files := Bytes → Option Node

/-- The steps of a replacement that fail, and what is left of the two that write. -/
structure Faults where
  createTemp : Bool
  /-- How many bytes were written before it failed. -/
  write : Option ℕ
  /-- How many bytes are stored, where closing fails. -/
  close : Option ℕ
  chmod : Bool
  removeTemp : Bool
  removeOld : Bool
  renameOld : Bool
  renameNew : Bool
  restore : Bool

/-- How a replacement is refused. -/
inductive Failure
  | createTemp
  | write
  | chmod
  | aside
  | install
  deriving DecidableEq

section Replace

variable (f : Faults) (exe tmp : Bytes)

/-- What is stored of what was written. -/
def stored (close : Option ℕ) (body : Bytes) : Bytes := close.elim body body.take

def old : Bytes := exe ++ text ".old"

/-- The name of `CreateTemp`, with the number it draws. -/
def tempName (dir : Bytes) (n : ℕ) : Bytes := dir ++ text "/.aurade-vm-new-" ++ decimal n

/-- `os.Remove`. Its error is dropped. -/
def remove (fails : Bool) (path : Bytes) : Act Files Failure Unit :=
  if fails then pure () else Act.modify fun fs => Function.update fs path none

/-- `os.Rename`. -/
def rename (src dst : Bytes) : Act Files Failure Unit :=
  Act.modify fun fs => Function.update (Function.update fs dst (fs src)) src none

/-- A file with this content. -/
def put (path : Bytes) (node : Node) : Act Files Failure Unit :=
  Act.modify fun fs => Function.update fs path (some node)

/-- The failing end of a step: the new file is removed. -/
def giveUp (e : Failure) : Act Files Failure Unit := do
  remove f.removeTemp tmp
  Act.fail e

/-- The second rename of `Replace`. Where it fails the old program is put back. -/
def install : Act Files Failure Unit :=
  if f.renameNew then do
    (if f.restore then pure () else rename (old exe) exe)
    giveUp f tmp .install
  else rename tmp exe

/-- The first. -/
def aside : Act Files Failure Unit :=
  if f.renameOld then giveUp f tmp .aside
  else do
    rename exe (old exe)
    install f exe tmp

/-- `Replace`. -/
def replace (body : Bytes) : Act Files Failure Unit :=
  if f.createTemp then Act.fail .createTemp
  else do
    put tmp (.file [] 0o600)
    match f.write with
    | some n => do
      put tmp (.file (body.take n) 0o600)
      giveUp f tmp .write
    | none => do
      -- what `Close` answers is not looked at
      put tmp (.file (stored f.close body) 0o600)
      if f.chmod then giveUp f tmp .chmod
      else do
        put tmp (.file (stored f.close body) 0o755)
        remove f.removeOld (old exe)
        aside f exe tmp

end Replace

/-! ## The update -/

structure Answer where
  status : ℕ
  body : Bytes

/-- What is answered for a URL; nothing where there is no answer, or it breaks off. -/
abbrev Server := Bytes → Option Answer

/-- `get`. -/
def get (server : Server) (url : Bytes) (limit : ℕ) : Option Bytes :=
  (server url).bind fun a =>
    if a.status ≠ 200 then none else if limit < a.body.length then none else some a.body

structure Sources where
  releases : Bytes
  key : Bytes

structure Pin where
  version : Bytes
  /-- Empty when nothing is published for this computer. -/
  sha256 : Bytes

structure Result where
  fromVersion : Bytes
  toVersion : Bytes
  signed : Bool

/-- The steps of `verifySums` that may fail. -/
structure SumsFaults where
  createTemp : Bool
  write : Bool
  close : Option ℕ

/-- How an update is refused. -/
inductive ApplyError
  | notPublished | download | mismatch | noKey | sumsFile | unsigned | unlisted
  | replace (e : Failure)

section Apply

variable (goos goarch : Bytes)

/-- `BuildName`. -/
def buildName (version : Bytes) : Bytes :=
  text "aurade-vm-" ++ version ++ text "-" ++ goos ++ text "-" ++ goarch ++
    if goos = text "windows" then text ".exe" else []

variable (src : Sources) (pin : Pin)

def base : Bytes := src.releases ++ text "/aurade-vm-v" ++ pin.version

def buildUrl : Bytes := base src pin ++ text "/" ++ buildName goos goarch pin.version
def sumsUrl : Bytes := base src pin ++ text "/SHA256SUMS"
def sigUrl : Bytes := base src pin ++ text "/SHA256SUMS.sig"

/-- The line of a build in the list. -/
def listing (sha : Bytes) : Bytes :=
  sha ++ text "  " ++ buildName goos goarch pin.version ++ text "\n"

variable (valid : Bytes → Bytes → Bytes → Bool) (sha256 : Bytes → Bytes) (g : SumsFaults)

/-- `verifySums`. The signature is checked of what is stored, and the list is searched as it was
served. -/
def verifySums (sums sig key : Bytes) (sha : Bytes) : Except ApplyError Unit :=
  if g.createTemp || g.write then .error .sumsFile
  else if !valid (stored g.close sums) sig key then .error .unsigned
  else if ¬listing goos goarch pin sha <:+: sums then .error .unlisted
  else .ok ()

variable (server : Server)

/-- The check of the signature, where there is one: whether it was checked. -/
def checkSigned (sha : Bytes) : Except ApplyError Bool :=
  match get server (sumsUrl src pin) (2 ^ 20) with
  | none => .ok false
  | some sums =>
    match get server (sigUrl src pin) (2 ^ 20) with
    | none => .ok false
    | some sig =>
      match get server src.key (2 ^ 20) with
      | none => .error .noKey
      | some key => (verifySums goos goarch pin valid g sums sig key sha).map fun _ => true

variable (f : Faults) (current exe tmp : Bytes)

/-- `Apply`. -/
def apply : Act Files ApplyError Result :=
  if pin.sha256 = [] then Act.fail .notPublished
  else
    match get server (buildUrl goos goarch src pin) (256 * 2 ^ 20) with
    | none => Act.fail .download
    | some body =>
      if sha256 body ≠ pin.sha256 then Act.fail .mismatch
      else do
        let signed ← Act.lift (checkSigned goos goarch src pin valid g server (sha256 body))
        Act.mapErr .replace (replace f exe tmp body)
        pure ⟨current, pin.version, signed⟩

end Apply

/-! ## What a replacement leaves -/

section Left

variable (f : Faults) {exe tmp : Bytes} {fs : Files}

/-- The new file was made and the old one moved aside. -/
def Reaches : Prop :=
  f.createTemp = false ∧ f.write = none ∧ f.chmod = false ∧ f.renameOld = false

/-- A temporary name is not that of the program that is moved aside. -/
theorem tempName_ne_old (dir exe : Bytes) (n : ℕ) : tempName dir n ≠ old exe := by
  intro h
  have hlast : (tempName dir n).getLast? = (old exe).getLast? := by rw [h]
  obtain ⟨digits, d, hd⟩ := List.eq_nil_or_concat' (decimal n) |>.resolve_left (decimal_ne_nil n)
  have hdigit : isDigit d = true := List.all_eq_true.1 (all_isDigit_decimal n) d (by simp [hd])
  have hold : (old exe).getLast? = some 100 := by
    have htext : text ".old" = [46, 111, 108] ++ [100] := by decide
    rw [old, htext, ← List.append_assoc, List.getLast?_concat]
  rw [hold, tempName, hd, ← List.append_assoc, List.getLast?_concat, Option.some.injEq] at hlast
  subst hlast
  exact absurd hdigit (by decide)

theorem exe_ne_old (exe : Bytes) : exe ≠ old exe := by
  have htext : text ".old" ≠ [] := by decide
  intro h
  exact htext (List.append_right_eq_self.1 h.symm)

/-- A step that ends a replacement changes no other path. -/
theorem giveUp_wp (e : Failure) {p : Bytes} (hp : p ≠ tmp) {x : Option Node} (h : fs p = x) :
    Act.wp (giveUp f tmp e) (fun _ _ => False) (fun _ fs' => fs' p = x) fs := by
  unfold giveUp remove
  cases f.removeTemp with
  | true => exact h
  | false => exact (Function.update_of_ne hp none fs).trans h

/-- Removing a file changes no other path, and does not fail. -/
theorem remove_wp (fails : Bool) {path p q : Bytes} (hp : p ≠ path) (hq : q ≠ path)
    {x y : Option Node} (hx : fs p = x) (hy : fs q = y) :
    Act.wp (remove fails path) (fun _ fs' => fs' p = x ∧ fs' q = y) (fun _ _ => False) fs := by
  unfold remove
  cases fails with
  | true => exact ⟨hx, hy⟩
  | false =>
    exact ⟨(Function.update_of_ne hp none fs).trans hx, (Function.update_of_ne hq none fs).trans hy⟩

/-- What the second rename leaves, once the program was moved aside. -/
theorem install_wp (hexe : exe ≠ tmp) {node : Node} (htmp : fs tmp = some node)
    (hnone : fs exe = none) :
    Act.wp (install f exe tmp) (fun _ fs' => f.renameNew = false ∧ fs' exe = some node)
      (fun _ fs' => f.renameNew = true ∧ fs' exe = if f.restore then none else fs (old exe)) fs := by
  unfold install rename
  cases hn : f.renameNew with
  | true =>
    cases hr : f.restore with
    | true =>
      exact Act.wp_mono (giveUp_wp f .install hexe hnone) (fun _ _ h => h.elim)
        fun _ _ h => ⟨rfl, h⟩
    | false =>
      have hput : Function.update (Function.update fs exe (fs (old exe))) (old exe) none exe =
          fs (old exe) := by
        rw [Function.update_of_ne (exe_ne_old exe), Function.update_self]
      exact Act.wp_mono (giveUp_wp f .install hexe hput) (fun _ _ h => h.elim) fun _ _ h => ⟨rfl, h⟩
  | false =>
    refine ⟨rfl, ?_⟩
    show Function.update (Function.update fs exe (fs tmp)) tmp none exe = some node
    rw [Function.update_of_ne hexe, Function.update_self, htmp]

/-- What both leave. -/
theorem aside_wp (hexe : exe ≠ tmp) (hold : old exe ≠ tmp) {node : Node} (htmp : fs tmp = some node) :
    Act.wp (aside f exe tmp)
      (fun _ fs' => f.renameOld = false ∧ f.renameNew = false ∧ fs' exe = some node)
      (fun _ fs' => (f.renameOld = false → f.renameNew = true) ∧
        fs' exe = if f.renameOld = false ∧ f.restore = true then none else fs exe) fs := by
  unfold aside
  cases ho : f.renameOld with
  | true =>
    refine Act.wp_mono (giveUp_wp f .aside hexe rfl) (fun _ _ h => h.elim) fun _ fs' h => ?_
    simpa using h
  | false =>
    have htmp' : Function.update (Function.update fs (old exe) (fs exe)) exe none tmp = some node := by
      rw [Function.update_of_ne hexe.symm, Function.update_of_ne hold.symm, htmp]
    have hnone : Function.update (Function.update fs (old exe) (fs exe)) exe none exe = none := by
      rw [Function.update_self]
    refine Act.wp_mono (install_wp f hexe htmp' hnone) ?_ ?_
    · exact fun _ _ h => ⟨rfl, h⟩
    · rintro _ fs' ⟨hn, h⟩
      have hmoved : Function.update (Function.update fs (old exe) (fs exe)) exe none (old exe) =
          fs exe := by
        rw [Function.update_of_ne (exe_ne_old exe).symm, Function.update_self]
      refine ⟨fun _ => hn, ?_⟩
      simpa [hmoved] using h

/-- **What a replacement leaves at the path of the program**: what was stored of the new one, or the
old one; nothing only where both renames behind the first fail. -/
theorem replace_wp (hexe : exe ≠ tmp) (hold : old exe ≠ tmp) (body : Bytes) :
    Act.wp (replace f exe tmp body)
      (fun _ fs' => Reaches f ∧ f.renameNew = false ∧
        fs' exe = some (.file (stored f.close body) 0o755))
      (fun _ fs' => (Reaches f → f.renameNew = true ∧ fs' exe = if f.restore then none else fs exe) ∧
        (¬Reaches f → fs' exe = fs exe)) fs := by
  unfold replace
  cases hc : f.createTemp with
  | true =>
    have hno : ¬Reaches f := fun h => by simp [Reaches, hc] at h
    exact ⟨fun h => absurd h hno, fun _ => rfl⟩
  | false =>
    cases hw : f.write with
    | some n =>
      have hno : ¬Reaches f := fun h => by simp [Reaches, hw] at h
      have hsame : Function.update (Function.update fs tmp (some (.file [] 0o600))) tmp
          (some (.file (body.take n) 0o600)) exe = fs exe := by
        rw [Function.update_of_ne hexe, Function.update_of_ne hexe]
      refine Act.wp_mono (giveUp_wp f .write hexe hsame) (fun _ _ h => h.elim) fun _ _ h => ?_
      exact ⟨fun hr => absurd hr hno, fun _ => h⟩
    | none =>
      have hwritten : ∀ (nodes : List Node) (fs' : Files), fs' = nodes.foldl
          (fun fs node => Function.update fs tmp (some node)) fs → fs' exe = fs exe := by
        rintro nodes _ rfl
        induction nodes using List.reverseRecOn with
        | nil => rfl
        | append_singleton nodes node ih =>
          rw [List.foldl_append, List.foldl_cons, List.foldl_nil, Function.update_of_ne hexe, ih]
      cases hm : f.chmod with
      | true =>
        have hno : ¬Reaches f := fun h => by simp [Reaches, hm] at h
        have hsame := hwritten [.file [] 0o600, .file (stored f.close body) 0o600] _ rfl
        refine Act.wp_mono (giveUp_wp f .chmod hexe hsame) (fun _ _ h => h.elim) fun _ _ h => ?_
        exact ⟨fun hr => absurd hr hno, fun _ => h⟩
      | false =>
        have hreach : Reaches f ↔ f.renameOld = false := by simp [Reaches, hc, hw, hm]
        have hsame := hwritten [.file [] 0o600, .file (stored f.close body) 0o600,
          .file (stored f.close body) 0o755] _ rfl
        have htmp : ∀ (fs' : Files) (node : Node), Function.update fs' tmp (some node) tmp = some node :=
          fun fs' node => by rw [Function.update_self]
        have hremoved := remove_wp f.removeOld (exe_ne_old exe) hold.symm hsame
          (htmp _ (.file (stored f.close body) 0o755))
        show Act.wp (remove f.removeOld (old exe) >>= fun _ => aside f exe tmp) _ _ _
        rw [Act.wp_bind]
        refine Act.wp_mono hremoved (fun _ fs' h => ?_) fun _ _ h => h.elim
        refine Act.wp_mono (aside_wp f hexe hold h.2) (fun _ _ h' => ?_) fun _ _ h' => ?_
        · exact ⟨hreach.2 h'.1, h'.2⟩
        · rw [hreach, ← h.1]
          refine ⟨fun hr => ⟨h'.1 hr, ?_⟩, fun hr => ?_⟩
          · simpa [hr] using h'.2
          · simpa [hr] using h'.2

end Left

/-! ## What an update leaves -/

section Update

variable (goos goarch : Bytes) (src : Sources) (pin : Pin) (valid : Bytes → Bytes → Bytes → Bool)
  (sha256 : Bytes → Bytes) (g : SumsFaults) (server : Server) (f : Faults) (current exe tmp : Bytes)

/-- A URL is answered with this. -/
def Served (url body : Bytes) : Prop := ∃ a, server url = some a ∧ a.status = 200 ∧ a.body = body

/-- The whole of the program that is pinned, and may be run. -/
def NewProgram (fs : Files) : Prop :=
  ∃ body, Served server (buildUrl goos goarch src pin) body ∧ sha256 body = pin.sha256 ∧
    fs exe = some (.file body 0o755)

/-- The old program or the new one is there whole; and of what is reported as installed, the list was
checked, if it and a signature were served. -/
structure Sound (fs fs' : Files) (result : Except ApplyError Result) : Prop where
  held : fs' exe = fs exe ∨ NewProgram goos goarch src pin sha256 server exe fs'
  installed : ∀ r, result = .ok r → NewProgram goos goarch src pin sha256 server exe fs' ∧
    ∀ list sig, Served server (sumsUrl src pin) list → Served server (sigUrl src pin) sig →
      r.signed = true ∧ ∃ key, Served server src.key key ∧ valid list sig key = true ∧
        listing goos goarch pin pin.sha256 <:+: list

/-- The answers that are not refused: a build with the sum that is pinned, in a list whose signature
is good, if both are taken. -/
def Accepted (body : Bytes) : Prop :=
  pin.sha256 ≠ [] ∧ get server (buildUrl goos goarch src pin) (256 * 2 ^ 20) = some body ∧
    sha256 body = pin.sha256 ∧
    ∀ list sig, get server (sumsUrl src pin) (2 ^ 20) = some list →
      get server (sigUrl src pin) (2 ^ 20) = some sig →
      ∃ key, get server src.key (2 ^ 20) = some key ∧
        verifySums goos goarch pin valid g list sig key pin.sha256 = .ok ()

/-- What is installed was stored whole; and a list and a signature that were served were taken, and
the list is good as it was served. -/
def Kept (body : Bytes) : Prop :=
  stored f.close body = body ∧
    ∀ list sig, Served server (sumsUrl src pin) list → Served server (sigUrl src pin) sig →
      list.length ≤ 2 ^ 20 ∧ sig.length ≤ 2 ^ 20 ∧
        ∃ key, Served server src.key key ∧ valid list sig key = true

theorem get_eq_some {url body : Bytes} {limit : ℕ} :
    get server url limit = some body ↔ Served server url body ∧ body.length ≤ limit := by
  unfold get Served
  cases server url with
  | none => simp
  | some a =>
    rw [Option.bind_some]
    split_ifs with hstatus hlen
    · simp [hstatus]
    · constructor
      · intro h
        cases h
      · rintro ⟨⟨a', ha, -, rfl⟩, hle⟩
        cases ha
        omega
    · simp only [Option.some.injEq]
      constructor
      · rintro rfl
        exact ⟨⟨a, rfl, not_not.1 hstatus, rfl⟩, Nat.le_of_not_lt hlen⟩
      · rintro ⟨⟨a', ha, -, rfl⟩, -⟩
        exact congrArg Answer.body ha

/-- A list and a signature that are both taken. -/
def Taken (list sig : Bytes) : Prop :=
  get server (sumsUrl src pin) (2 ^ 20) = some list ∧ get server (sigUrl src pin) (2 ^ 20) = some sig

/-- The check passes where there is nothing to check, and where what there is, is good. -/
theorem checkSigned_ok {sha : Bytes} {signed : Bool} :
    checkSigned goos goarch src pin valid g server sha = .ok signed ↔
      (signed = false ∧ ∀ list sig, ¬Taken src pin server list sig) ∨
        (signed = true ∧ ∃ list sig key, Taken src pin server list sig ∧
          get server src.key (2 ^ 20) = some key ∧
            verifySums goos goarch pin valid g list sig key sha = .ok ()) := by
  unfold checkSigned Taken
  cases hsums : get server (sumsUrl src pin) (2 ^ 20) with
  | none => simp [eq_comm]
  | some sums =>
    cases hsig : get server (sigUrl src pin) (2 ^ 20) with
    | none => simp [eq_comm]
    | some sig =>
      cases hkey : get server src.key (2 ^ 20) with
      | none => simp
      | some key =>
        cases hv : verifySums goos goarch pin valid g sums sig key sha with
        | error e => simp [Except.map, hv]
        | ok _ => simp [Except.map, hv, eq_comm]

/-- An update that is refused changes nothing. -/
theorem apply_refused (fs : Files)
    (h : ∀ body, ¬Accepted goos goarch src pin valid sha256 g server body) :
    ∃ e, apply goos goarch src pin valid sha256 g server f current exe tmp fs = (.error e, fs) := by
  unfold apply
  by_cases hpin : pin.sha256 = []
  · rw [if_pos hpin]
    exact ⟨_, rfl⟩
  · rw [if_neg hpin]
    cases hbody : get server (buildUrl goos goarch src pin) (256 * 2 ^ 20) with
    | none => exact ⟨_, rfl⟩
    | some body =>
      by_cases hsha : sha256 body = pin.sha256
      · simp only [hsha, ne_eq, not_true_eq_false, if_false]
        cases hc : checkSigned goos goarch src pin valid g server pin.sha256 with
        | error e => exact ⟨e, rfl⟩
        | ok signed =>
          refine absurd ⟨hpin, hbody, hsha, fun list sig hlist hsig => ?_⟩ (h body)
          rcases checkSigned_ok goos goarch src pin valid g server |>.1 hc with
            ⟨-, hno⟩ | ⟨-, list', sig', key, ⟨hlist', hsig'⟩, hkey, hv⟩
          · exact absurd ⟨hlist, hsig⟩ (hno list sig)
          · cases hlist.symm.trans hlist'
            cases hsig.symm.trans hsig'
            exact ⟨key, hkey, hv⟩
      · simp only [hsha, ne_eq, not_false_eq_true, if_true]
        exact ⟨_, rfl⟩

/-- An update that is not refused is the replacement. -/
theorem apply_accepted (fs : Files) {body : Bytes}
    (h : Accepted goos goarch src pin valid sha256 g server body) :
    ∃ signed, (signed = true ↔ ∃ list sig, Taken src pin server list sig) ∧
      apply goos goarch src pin valid sha256 g server f current exe tmp fs =
        (Act.mapErr .replace (replace f exe tmp body) >>= fun _ =>
          pure ⟨current, pin.version, signed⟩ : Act Files ApplyError Result) fs := by
  obtain ⟨hpin, hbody, hsha, hgood⟩ := h
  obtain ⟨signed, hsigned, hc⟩ : ∃ signed, (signed = true ↔ ∃ list sig, Taken src pin server list sig) ∧
      checkSigned goos goarch src pin valid g server pin.sha256 = .ok signed := by
    by_cases ht : ∃ list sig, Taken src pin server list sig
    · obtain ⟨list, sig, htaken⟩ := ht
      obtain ⟨key, hkey, hv⟩ := hgood list sig htaken.1 htaken.2
      exact ⟨true, by simpa using ⟨list, sig, htaken⟩, (checkSigned_ok _ _ _ _ _ _ _).2
        (Or.inr ⟨rfl, list, sig, key, htaken, hkey, hv⟩)⟩
    · exact ⟨false, by simpa using ht, (checkSigned_ok _ _ _ _ _ _ _).2
        (Or.inl ⟨rfl, fun list sig htaken => ht ⟨list, sig, htaken⟩⟩)⟩
  refine ⟨signed, hsigned, ?_⟩
  unfold apply
  simp only [hpin, hbody, hsha, hc, if_false, ne_eq, not_true_eq_false]
  rfl

theorem Served.unique {server : Server} {url body body' : Bytes} (h : Served server url body)
    (h' : Served server url body') : body = body' := by
  obtain ⟨a, ha, -, rfl⟩ := h
  obtain ⟨a', ha', -, rfl⟩ := h'
  exact congrArg Answer.body (Option.some.inj (ha.symm.trans ha'))

theorem listing_of_verifySums {list sig key : Bytes}
    (h : verifySums goos goarch pin valid g list sig key pin.sha256 = .ok ()) :
    listing goos goarch pin pin.sha256 <:+: list := by
  unfold verifySums at h
  split_ifs at h with _ _ hlisted
  exact hlisted

/-- What was installed is sound where it was kept. -/
theorem sound_ok_iff {fs fs' : Files} {body : Bytes} {signed : Bool}
    (h : Accepted goos goarch src pin valid sha256 g server body)
    (hsigned : signed = true ↔ ∃ list sig, Taken src pin server list sig)
    (hexe : fs' exe = some (.file (stored f.close body) 0o755)) :
    Sound goos goarch src pin valid sha256 server exe fs fs' (.ok ⟨current, pin.version, signed⟩) ↔
      Kept src pin valid server f body := by
  obtain ⟨-, hbody, hsha, hgood⟩ := h
  have hserved := ((get_eq_some server).1 hbody).1
  constructor
  · rintro ⟨-, hinstalled⟩
    obtain ⟨⟨body', hserved', -, hnew⟩, hlist⟩ := hinstalled _ rfl
    rw [hexe, ← hserved.unique hserved'] at hnew
    refine ⟨Node.file.inj (Option.some.inj hnew) |>.1, fun list sig hl hs => ?_⟩
    obtain ⟨hchecked, key, hkey, hvalid, -⟩ := hlist list sig hl hs
    obtain ⟨list', sig', htl, hts⟩ := hsigned.1 hchecked
    obtain ⟨hl', hlen⟩ := (get_eq_some server).1 htl
    obtain ⟨hs', hlen'⟩ := (get_eq_some server).1 hts
    rw [← hl.unique hl'] at hlen
    rw [← hs.unique hs'] at hlen'
    exact ⟨hlen, hlen', key, hkey, hvalid⟩
  · rintro ⟨hstored, hlist⟩
    have hnew : NewProgram goos goarch src pin sha256 server exe fs' :=
      ⟨body, hserved, hsha, by rw [hexe, hstored]⟩
    refine ⟨Or.inr hnew, fun r hr => ?_⟩
    cases hr
    refine ⟨hnew, fun list sig hl hs => ?_⟩
    obtain ⟨hlen, hlen', key, hkey, hvalid⟩ := hlist list sig hl hs
    have htl := (get_eq_some server).2 ⟨hl, hlen⟩
    have hts := (get_eq_some server).2 ⟨hs, hlen'⟩
    obtain ⟨key', -, hv⟩ := hgood list sig htl hts
    exact ⟨hsigned.2 ⟨list, sig, htl, hts⟩, key, hkey, hvalid,
      listing_of_verifySums goos goarch pin valid g hv⟩

/-- What was not installed is sound where the old program is there. -/
theorem sound_error_iff {fs fs' : Files} {e : ApplyError}
    (hexe : fs' exe = none ∨ fs' exe = fs exe) :
    Sound goos goarch src pin valid sha256 server exe fs fs' (.error e) ↔ fs' exe = fs exe := by
  constructor
  · rintro ⟨hheld | ⟨_, _, _, hnew⟩, -⟩
    · exact hheld
    · rcases hexe with hnone | hsame
      · rw [hnone] at hnew
        cases hnew
      · exact hsame
  · intro hsame
    refine ⟨Or.inl hsame, fun r hr => ?_⟩
    cases hr

end Update

/-! ## A release without a list -/

def program : Bytes := text "/opt/aurade-vm"

/-- The folder of an old program. -/
def folder : Files := fun p => if p = program then some (.file (text "old") 0o755) else none

def sources : Sources := ⟨text "https://releases", text "https://key"⟩

def newSum : Bytes := text "11507a0e2f5e69d5dfa40a62a1bd7b6ee57e6bcd85c67c9b8431b36fff21c437"

def newPin : Pin := ⟨text "0.3.1", newSum⟩

def buildAt : Bytes := buildUrl (text "linux") (text "amd64") sources newPin

/-- A server that has the build alone. -/
def oneBuild : Server := fun url => if url = buildAt then some ⟨200, text "new"⟩ else some ⟨404, []⟩

/-- The sum of that build. -/
def sumOf (body : Bytes) : Bytes := if body = text "new" then newSum else []

def noFaults : Faults := ⟨false, none, none, false, false, false, false, false, false⟩

end Aurade.Vm.Update
