import Aurade.Foundations.Text

/-!
# What gpg says of a signature

`parse_gpg_status` goes through the lines gpg writes for programs and sets a flag for each keyword it
knows, whatever signature the line is about. A file may have several signatures, each with its verdict
and its trust: the flags of one and of another together may come to a signature that is good and trusted
where none is (`parseGpgStatus_iff`).
-/

namespace Aurade.Desktop.Gpg

/-! ## The parser -/

/-- `SignatureStatus`. -/
inductive SignatureStatus
  | goodAndTrusted
  | goodButUntrusted
  | bad
  | keyMissing
  | keyExpiredOrRevoked
  | notSigned
  deriving DecidableEq

/-- `Signature`. -/
structure Signature where
  status : SignatureStatus
  keyId : Option Bytes
  signer : Option Bytes
  detail : Bytes
  deriving DecidableEq

/-- `is_char_boundary`. -/
def isCharBoundary (bs : Bytes) (i : ℕ) : Bool := i = bs.length || bs[i]?.any (!Utf8.isCont ·)

/-- The last boundary up to an index. -/
def cutAt (bs : Bytes) : ℕ → ℕ
  | 0 => 0
  | i + 1 => if isCharBoundary bs (i + 1) then i + 1 else cutAt bs i

/-- `gpg_detail`. -/
def gpgDetail (human : Bytes) : Bytes :=
  let kept := ((lines human).map trimEnd).filter (· ≠ [])
  let out := [newline].intercalate kept
  if 4096 < out.length then out.take (cutAt out 4096) else out

/-- What a status line begins with. -/
def statusPrefix : Bytes := text "[GNUPG:] "

/-- It is a status line. -/
def isStatus (line : Bytes) : Bool := statusPrefix.isPrefixOf line

/-- The words of a status line. -/
def partsOf (line : Bytes) : Option (List Bytes) :=
  if isStatus line then some ((line.drop statusPrefix.length).splitOn 32) else none

/-- The first of them. -/
def keywordOf (line : Bytes) : Option Bytes := (partsOf line).bind List.head?

/-- The keywords that the parser knows, by what it does with them. -/
inductive Keyword
  | good
  | bad
  | missing
  | expired
  | trusted
  | other
  deriving DecidableEq

/-- What the parser takes a keyword for. -/
def classify (w : Bytes) : Keyword :=
  if w = text "GOODSIG" then .good
  else if w = text "BADSIG" then .bad
  else if w = text "NO_PUBKEY" then .missing
  else if w = text "EXPKEYSIG" ∨ w = text "REVKEYSIG" then .expired
  else if w = text "TRUST_FULLY" ∨ w = text "TRUST_ULTIMATE" then .trusted
  else .other

/-- What the parser has gathered. -/
structure Flags where
  keyId : Option Bytes := none
  signer : Option Bytes := none
  good : Bool := false
  bad : Bool := false
  missing : Bool := false
  expired : Bool := false
  trusted : Bool := false

/-- What the parser does with a line. -/
def readStatus (s : Flags) (line : Bytes) : Flags :=
  match partsOf line with
  | none => s
  | some [] => s
  | some (keyword :: parts) =>
    match classify keyword with
    | .good =>
      { s with
        good := true
        keyId := parts.head?
        signer := if parts.tail = [] then s.signer else some ([32].intercalate parts.tail) }
    | .bad => { s with bad := true, keyId := parts.head? }
    | .missing => { s with missing := true, keyId := parts.head? }
    | .expired => { s with expired := true, keyId := parts.head? }
    | .trusted => { s with trusted := true }
    | .other => s

/-- What the flags come to. -/
def Flags.status (s : Flags) : SignatureStatus :=
  if s.bad then .bad
  else if s.expired then .keyExpiredOrRevoked
  else if s.missing then .keyMissing
  else if s.good && s.trusted then .goodAndTrusted
  else if s.good then .goodButUntrusted
  else .notSigned

/-- The flags of lines. -/
def flagsOf (ls : List Bytes) : Flags := ls.foldl readStatus {}

/-- `parse_gpg_status`. -/
def parseGpgStatus (status human : Bytes) : Signature :=
  let s := flagsOf (lines status)
  { status := s.status, keyId := s.keyId, signer := s.signer, detail := gpgDetail human }

/-! ## Signatures -/

/-- The keywords that say what a signature is. -/
def verdicts : List Bytes :=
  [text "GOODSIG", text "BADSIG", text "ERRSIG", text "NO_PUBKEY", text "EXPSIG", text "EXPKEYSIG",
    text "REVKEYSIG"]

/-- The line says what a signature is. -/
def IsVerdict (line : Bytes) : Prop := ∃ w ∈ verdicts, keywordOf line = some w

/-- The line says that the user has vouched for the key. -/
def Vouches (line : Bytes) : Prop :=
  keywordOf line = some (text "TRUST_FULLY") ∨ keywordOf line = some (text "TRUST_ULTIMATE")

instance : DecidablePred IsVerdict := fun _ => inferInstanceAs (Decidable (∃ w ∈ verdicts, _))

instance : DecidablePred Vouches := fun _ => inferInstanceAs (Decidable (_ ∨ _))

/-- The lines of one signature: those before its verdict, with a `NEWSIG` or without, the verdict, and
those behind it, with its trust or without. A missing key is told behind an `ERRSIG`. -/
structure Block where
  before : List Bytes
  verdict : Bytes
  after : List Bytes
  quiet : ∀ l ∈ before, ¬IsVerdict l ∧ ¬Vouches l
  concludes : IsVerdict verdict
  single : ∀ l ∈ after, IsVerdict l →
    keywordOf verdict = some (text "ERRSIG") ∧ keywordOf l = some (text "NO_PUBKEY")

namespace Block

/-- The lines of a signature. -/
def lines (b : Block) : List Bytes := b.before ++ b.verdict :: b.after

/-- The signature is good. -/
def Good (b : Block) : Prop := keywordOf b.verdict = some (text "GOODSIG")

/-- The user has vouched for the key of the signature. -/
def Vouched (b : Block) : Prop := ∃ l ∈ b.after, Vouches l

/-- The signature is bad, or its key is missing, expired or revoked. -/
def Spoils (b : Block) : Prop :=
  ∃ w ∈ [text "BADSIG", text "NO_PUBKEY", text "EXPKEYSIG", text "REVKEYSIG"],
    keywordOf b.verdict = some w ∨ ∃ l ∈ b.after, keywordOf l = some w

end Block

/-! ## What the flags tell -/

section

variable {ls : List Bytes} {l w : Bytes} {k : Keyword}

/-- The line has a keyword that the parser takes for this. -/
def Tells (k : Keyword) (line : Bytes) : Prop := ∃ w, keywordOf line = some w ∧ classify w = k

/-- A line sets the flag of its keyword, and no other. -/
theorem readStatus_flags (s : Flags) (l : Bytes) :
    ((readStatus s l).good = true ↔ s.good = true ∨ Tells .good l) ∧
      ((readStatus s l).bad = true ↔ s.bad = true ∨ Tells .bad l) ∧
      ((readStatus s l).missing = true ↔ s.missing = true ∨ Tells .missing l) ∧
      ((readStatus s l).expired = true ↔ s.expired = true ∨ Tells .expired l) ∧
      ((readStatus s l).trusted = true ↔ s.trusted = true ∨ Tells .trusted l) := by
  unfold readStatus Tells keywordOf
  rcases partsOf l with _ | _ | ⟨w, ws⟩
  · simp
  · simp
  · cases hw : classify w <;> simp [hw]

/-- **The flags**: each is set just where a line tells it. -/
theorem flagsOf_iff (ls : List Bytes) :
    ((flagsOf ls).good = true ↔ ∃ l ∈ ls, Tells .good l) ∧
      ((flagsOf ls).bad = true ↔ ∃ l ∈ ls, Tells .bad l) ∧
      ((flagsOf ls).missing = true ↔ ∃ l ∈ ls, Tells .missing l) ∧
      ((flagsOf ls).expired = true ↔ ∃ l ∈ ls, Tells .expired l) ∧
      ((flagsOf ls).trusted = true ↔ ∃ l ∈ ls, Tells .trusted l) := by
  induction ls using List.reverseRecOn with
  | nil => simp [flagsOf]
  | append_singleton ls l ih =>
    have hstep : flagsOf (ls ++ [l]) = readStatus (flagsOf ls) l := by
      rw [flagsOf, List.foldl_append]
      rfl
    obtain ⟨hgood, hbad, hmissing, hexpired, htrusted⟩ := readStatus_flags (flagsOf ls) l
    obtain ⟨ihgood, ihbad, ihmissing, ihexpired, ihtrusted⟩ := ih
    rw [hstep, hgood, hbad, hmissing, hexpired, htrusted, ihgood, ihbad, ihmissing, ihexpired, ihtrusted]
    simp only [List.mem_append, List.mem_singleton, or_and_right, exists_or, exists_eq_left, and_self]

/-- What it takes to be called good and trusted. -/
theorem goodAndTrusted_iff : (flagsOf ls).status = .goodAndTrusted ↔
    (∀ l ∈ ls, ¬Tells .bad l ∧ ¬Tells .missing l ∧ ¬Tells .expired l) ∧
      (∃ l ∈ ls, Tells .good l) ∧ ∃ l ∈ ls, Tells .trusted l := by
  obtain ⟨hgood, hbad, hmissing, hexpired, htrusted⟩ := flagsOf_iff ls
  rw [← hgood, ← htrusted]
  have hclean : (∀ l ∈ ls, ¬Tells .bad l ∧ ¬Tells .missing l ∧ ¬Tells .expired l) ↔
      (flagsOf ls).bad = false ∧ (flagsOf ls).missing = false ∧ (flagsOf ls).expired = false := by
    rw [← Bool.not_eq_true, ← Bool.not_eq_true, ← Bool.not_eq_true, hbad, hmissing, hexpired]
    push Not
    exact ⟨fun h => ⟨fun l hl => (h l hl).1, fun l hl => (h l hl).2.1, fun l hl => (h l hl).2.2⟩,
      fun h l hl => ⟨h.1 l hl, h.2.1 l hl, h.2.2 l hl⟩⟩
  rw [hclean, Flags.status]
  cases (flagsOf ls).good <;> cases (flagsOf ls).bad <;> cases (flagsOf ls).missing <;>
    cases (flagsOf ls).expired <;> cases (flagsOf ls).trusted <;> decide

/-- A line that is none of gpg's sets nothing. -/
theorem readStatus_of_not_status (s : Flags) (h : ¬isStatus l) : readStatus s l = s := by
  rw [readStatus, partsOf, if_neg h]

/-- **Only status lines count.** -/
theorem flagsOf_filter (ls : List Bytes) : flagsOf (ls.filter isStatus) = flagsOf ls := by
  unfold flagsOf
  rw [List.foldl_filter]
  refine List.foldl_ext _ _ _ fun s l _ => ?_
  split_ifs with h
  · rfl
  · exact (readStatus_of_not_status s h).symm

theorem tells_good_iff : Tells .good l ↔ keywordOf l = some (text "GOODSIG") := by
  have hword (w : Bytes) : classify w = .good ↔ w = text "GOODSIG" := by
    unfold classify
    split_ifs <;> simp_all
  simp only [Tells, hword, exists_eq_right]

theorem tells_trusted_iff : Tells .trusted l ↔ Vouches l := by
  have hword (w : Bytes) :
      classify w = .trusted ↔ w = text "TRUST_FULLY" ∨ w = text "TRUST_ULTIMATE" := by
    constructor
    · unfold classify
      split_ifs <;> simp_all
    · rintro (rfl | rfl) <;> decide
  simp only [Tells, hword, Vouches, and_or_left, exists_or, exists_eq_right]

/-- The keywords that no good signature goes with. -/
def spoiling : List Bytes := [text "BADSIG", text "NO_PUBKEY", text "EXPKEYSIG", text "REVKEYSIG"]

theorem tells_spoiling_iff : Tells .bad l ∨ Tells .missing l ∨ Tells .expired l ↔
    ∃ w ∈ spoiling, keywordOf l = some w := by
  have hword (w : Bytes) :
      (classify w = .bad ∨ classify w = .missing ∨ classify w = .expired) ↔ w ∈ spoiling := by
    constructor
    · unfold classify
      split_ifs <;> simp_all [spoiling]
    · intro h
      have hall : ∀ w ∈ spoiling, classify w = .bad ∨ classify w = .missing ∨ classify w = .expired := by
        decide
      exact hall w h
  unfold Tells
  rw [← exists_or, ← exists_or]
  refine exists_congr fun w => ?_
  rw [← and_or_left, ← and_or_left, hword, and_comm]

end

/-! ## Signatures and flags -/

section

variable {blocks : List Block} {b : Block} {l w : Bytes}

theorem Block.mem_lines : l ∈ b.lines ↔ l ∈ b.before ∨ l = b.verdict ∨ l ∈ b.after := by
  rw [Block.lines, List.mem_append, List.mem_cons]

/-- A good signature is told by its verdict. -/
theorem exists_good_iff :
    (∃ l ∈ blocks.flatMap Block.lines, Tells .good l) ↔ ∃ b ∈ blocks, b.Good := by
  constructor
  · rintro ⟨l, hl, htells⟩
    obtain ⟨b, hb, hl⟩ := List.mem_flatMap.1 hl
    have hword := tells_good_iff.1 htells
    rcases Block.mem_lines.1 hl with hl | rfl | hl
    · exact absurd ⟨_, by decide, hword⟩ (b.quiet l hl).1
    · exact ⟨b, hb, hword⟩
    · have hmissing := (b.single l hl ⟨_, by decide, hword⟩).2
      exact absurd (Option.some.inj (hword.symm.trans hmissing)) (by decide)
  · rintro ⟨b, hb, hgood⟩
    exact ⟨b.verdict, List.mem_flatMap.2 ⟨b, hb, Block.mem_lines.2 (Or.inr (Or.inl rfl))⟩,
      tells_good_iff.2 hgood⟩

/-- A line of trust stands behind the verdict it is about. -/
theorem exists_trusted_iff :
    (∃ l ∈ blocks.flatMap Block.lines, Tells .trusted l) ↔ ∃ b ∈ blocks, b.Vouched := by
  constructor
  · rintro ⟨l, hl, htells⟩
    obtain ⟨b, hb, hl⟩ := List.mem_flatMap.1 hl
    have hvouches := tells_trusted_iff.1 htells
    rcases Block.mem_lines.1 hl with hl | rfl | hl
    · exact absurd hvouches (b.quiet l hl).2
    · obtain ⟨w, hw, hverdict⟩ := b.concludes
      rcases hvouches with h | h
      · exact absurd (Option.some.inj (h.symm.trans hverdict) ▸ hw) (by decide)
      · exact absurd (Option.some.inj (h.symm.trans hverdict) ▸ hw) (by decide)
    · exact ⟨b, hb, l, hl, hvouches⟩
  · rintro ⟨b, hb, l, hl, hvouches⟩
    exact ⟨l, List.mem_flatMap.2 ⟨b, hb, Block.mem_lines.2 (Or.inr (Or.inr hl))⟩,
      tells_trusted_iff.2 hvouches⟩

/-- What spoils a signature is told by its verdict or behind it. -/
theorem exists_spoiling_iff : (∃ l ∈ blocks.flatMap Block.lines, ∃ w ∈ spoiling, keywordOf l = some w) ↔
    ∃ b ∈ blocks, b.Spoils := by
  constructor
  · rintro ⟨l, hl, w, hw, hword⟩
    obtain ⟨b, hb, hl⟩ := List.mem_flatMap.1 hl
    have hverdict : ∀ w ∈ spoiling, w ∈ verdicts := by decide
    rcases Block.mem_lines.1 hl with hl | rfl | hl
    · exact absurd ⟨w, hverdict w hw, hword⟩ (b.quiet l hl).1
    · exact ⟨b, hb, w, hw, Or.inl hword⟩
    · exact ⟨b, hb, w, hw, Or.inr ⟨l, hl, hword⟩⟩
  · rintro ⟨b, hb, w, hw, hword | ⟨l, hl, hword⟩⟩
    · exact ⟨b.verdict, List.mem_flatMap.2 ⟨b, hb, Block.mem_lines.2 (Or.inr (Or.inl rfl))⟩, w, hw, hword⟩
    · exact ⟨l, List.mem_flatMap.2 ⟨b, hb, Block.mem_lines.2 (Or.inr (Or.inr hl))⟩, w, hw, hword⟩

/-- What it takes of signatures to be called good and trusted. -/
theorem blocks_goodAndTrusted_iff : (flagsOf (blocks.flatMap Block.lines)).status = .goodAndTrusted ↔
    (∀ b ∈ blocks, ¬b.Spoils) ∧ (∃ b ∈ blocks, b.Good) ∧ ∃ b ∈ blocks, b.Vouched := by
  rw [goodAndTrusted_iff, exists_good_iff, exists_trusted_iff]
  refine and_congr ?_ Iff.rfl
  rw [← not_iff_not]
  push Not
  rw [← exists_spoiling_iff]
  refine exists_congr fun l => and_congr_right fun _ => ?_
  rw [← tells_spoiling_iff]
  tauto

/-- **Lines that are not gpg's never count, and only what is good and vouched for is called so**, just
where one signature is spoilt, none is good, none is vouched for, or all are both. -/
theorem parseGpgStatus_iff (human : Bytes) :
    (∀ status other, (lines other).filter isStatus = (lines status).filter isStatus →
        parseGpgStatus other human = parseGpgStatus status human) ∧
      ∀ (blocks : List Block) (status : Bytes), lines status = blocks.flatMap Block.lines →
        (((parseGpgStatus status human).status = .goodAndTrusted →
            ∀ b ∈ blocks, b.Good ∧ b.Vouched) ↔
          (∃ b ∈ blocks, b.Spoils) ∨ (∀ b ∈ blocks, ¬b.Good) ∨ (∀ b ∈ blocks, ¬b.Vouched) ∨
            ∀ b ∈ blocks, b.Good ∧ b.Vouched) := by
  constructor
  · intro status other h
    rw [parseGpgStatus, parseGpgStatus, ← flagsOf_filter (lines other), h, flagsOf_filter]
  · intro blocks status h
    have hstatus : (parseGpgStatus status human).status = .goodAndTrusted ↔
        (∀ b ∈ blocks, ¬b.Spoils) ∧ (∃ b ∈ blocks, b.Good) ∧ ∃ b ∈ blocks, b.Vouched := by
      rw [← blocks_goodAndTrusted_iff, ← h]
      rfl
    rw [hstatus]
    constructor
    · intro himp
      by_cases hspoils : ∃ b ∈ blocks, b.Spoils
      · exact Or.inl hspoils
      by_cases hgood : ∃ b ∈ blocks, b.Good
      · by_cases hvouched : ∃ b ∈ blocks, b.Vouched
        · exact Or.inr (Or.inr (Or.inr (himp ⟨by push Not at hspoils; exact hspoils, hgood, hvouched⟩)))
        · exact Or.inr (Or.inr (Or.inl (by push Not at hvouched; exact hvouched)))
      · exact Or.inr (Or.inl (by push Not at hgood; exact hgood))
    · rintro (⟨b, hb, hspoils⟩ | hgood | hvouched | hall) ⟨hclean, ⟨b₁, hb₁, hgood₁⟩, b₂, hb₂, hvouched₂⟩
      · exact absurd hspoils (hclean b hb)
      · exact absurd hgood₁ (hgood b₁ hb₁)
      · exact absurd hvouched₂ (hvouched b₂ hb₂)
      · exact hall

end

/-- A good signature of a key that the user has vouched for. -/
def known : Block where
  before := [text "[GNUPG:] NEWSIG"]
  verdict := text "[GNUPG:] GOODSIG A1 X"
  after := [text "[GNUPG:] TRUST_FULLY 0 pgp"]
  quiet := by decide
  concludes := by decide
  single := by decide

/-- A good signature of a key that may be anyone's. -/
def unknown : Block where
  before := [text "[GNUPG:] NEWSIG"]
  verdict := text "[GNUPG:] GOODSIG A2 Y"
  after := [text "[GNUPG:] TRUST_UNDEFINED 0 pgp"]
  quiet := by decide
  concludes := by decide
  single := by decide

/-- What gpg writes of signatures. -/
def statusOf (blocks : List Block) : Bytes := (blocks.flatMap Block.lines).flatMap (· ++ [newline])

/-- A signature that is known, with a line between that is not gpg's. -/
theorem parseGpgStatus_known :
    parseGpgStatus (text "BADSIG oops\n" ++ statusOf [known]) [] = parseGpgStatus (statusOf [known]) [] ∧
      ((parseGpgStatus (statusOf [known]) []).status = .goodAndTrusted →
        ∀ b ∈ [known], b.Good ∧ b.Vouched) := by
  refine ⟨(parseGpgStatus_iff []).1 (statusOf [known]) _ (by decide), ?_⟩
  refine ((parseGpgStatus_iff []).2 [known] (statusOf [known]) (by decide)).2 ?_
  refine Or.inr (Or.inr (Or.inr fun b hb => ?_))
  rw [List.mem_singleton.1 hb]
  exact ⟨(by decide : keywordOf known.verdict = some (text "GOODSIG")), _, List.mem_singleton_self _,
    by decide⟩

/-- Two signatures, one known and one not, are called good and trusted. -/
theorem unknown_trusted :
    lines (statusOf [unknown, known]) = [unknown, known].flatMap Block.lines ∧
      (parseGpgStatus (statusOf [unknown, known]) []).status = .goodAndTrusted ∧
      ¬∀ b ∈ [unknown, known], b.Good ∧ b.Vouched := by
  refine ⟨by decide, by decide, fun h => ?_⟩
  obtain ⟨l, hl, hvouches⟩ := (h unknown List.mem_cons_self).2
  rw [List.mem_singleton.1 hl] at hvouches
  exact absurd hvouches (by decide)

end Aurade.Desktop.Gpg
