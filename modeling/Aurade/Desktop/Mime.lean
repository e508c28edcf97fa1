import Aurade.Foundations.Chars
import Mathlib.Data.List.Sort
import Mathlib.Logic.Function.Basic

/-!
# What a file is, by its name

The database is read line by line into three indexes (`MimeDb`): literal names, plain extensions
under a key, and all other patterns in the order of a scan. `byName` asks one after the other.

A line flagged `cs` compares case and any other does not, which is what `Glob.Matches` says of one
line. The indexes say it in their own ways: a literal is looked up as the name is spelled, and an
extension under its key in the name in lower case. `byName_isSome_iff` is what that comes to.

`lower` is `str::to_lowercase`, of which `Lowercase` has what is used: it goes on behind `*.`, and it
makes no wildcard. `CaseTable.toLowercase` is the function itself, over Unicode's tables of letters.
-/

namespace Aurade.Desktop

/-! ## Patterns -/

/-- The characters of a pattern that stand for others. -/
def isWildcard (c : Char) : Bool := c = '*' || c = '?' || c = '['

/-- The loop over a character class: single characters and ranges. -/
def classHit (c : Char) : Str → Bool
  | a :: dash :: b :: rest =>
    if dash = '-' then (a ≤ c && c ≤ b) || classHit c rest else c = a || classHit c (dash :: b :: rest)
  | set => set.contains c

/-- `matches_from`. Every turn takes something off the pattern, whose length bounds them. -/
def matchesFrom : ℕ → Str → Str → Bool
  | 0, _, _ => false
  | _ + 1, [], n => n.isEmpty
  | turns + 1, c :: rest, n =>
    if c = '*' then
      let rest := rest.dropWhile (· = '*')
      if rest = [] then true else n.tails.any (matchesFrom turns rest)
    else
      match n with
      | [] => false
      | x :: n =>
        if c = '?' then matchesFrom turns rest n
        else if c = '[' then
          match Str.splitOnce ']' rest with
          | none => false
          | some (set, rest) =>
            let negate : Bool := set.head? = some '!'
            let set := if negate then set.tail else set
            if classHit x set = negate then false else matchesFrom turns rest n
        else if x ≠ c then false
        else matchesFrom turns rest n

def globMatch (pattern name : Str) : Bool := matchesFrom (pattern.length + 1) pattern name

/-- `*.txt` gives `txt`; anything with another wildcard in it gives nothing. -/
def plainExtension : Str → Option Str
  | star :: dot :: rest =>
    if star = '*' ∧ dot = '.' ∧ !rest.any (fun c => isWildcard c || c = '/') then some rest else none
  | _ => none

/-! ## The database -/

/-- A line of the database. -/
structure Glob where
  pattern : Str
  mime : Str
  weight : ℕ
  caseSensitive : Bool
  deriving DecidableEq

structure MimeDb where
  literals : Str → Option Str
  extensions : Str → Option Glob
  globs : List Glob

variable (lower : Str → Str)

/-- `weight:mime:glob[:flags]`. -/
def parseGlob (line : Str) : Option Glob :=
  if line.head? = some '#' ∨ line = [] then none
  else
    match Str.splitn ':' 4 line with
    | w :: mime :: pattern :: flags =>
      some { pattern, mime, weight := (Str.parseU32 w).getD 50,
             caseSensitive := Str.hasSub ['c', 's'] (flags.headD []) }
    | _ => none

/-- The key of a plain extension. -/
def Glob.key (g : Glob) : Option Str :=
  (plainExtension g.pattern).map fun ext => if g.caseSensitive then ext else lower ext

/-- The body of the loop over the lines. -/
def MimeDb.add (db : MimeDb) (g : Glob) : MimeDb :=
  match g.key lower with
  | some key =>
    if (db.extensions key).all (·.weight < g.weight) then
      { db with extensions := Function.update db.extensions key (some g) }
    else db
  | none =>
    if !g.pattern.any isWildcard then
      { db with literals := Function.update db.literals g.pattern (some g.mime) }
    else { db with globs := db.globs ++ [g] }

/-- The heavier before the lighter, and of one weight the longer, in bytes, before the shorter. -/
def Glob.before (a b : Glob) : Prop :=
  b.weight < a.weight ∨ (b.weight = a.weight ∧
    (b.pattern.map Char.utf8Size).sum ≤ (a.pattern.map Char.utf8Size).sum)

instance : DecidableRel Glob.before := fun _ _ => inferInstanceAs (Decidable (_ ∨ _))

/-- The lines of a database, in their order. -/
def globLines (text : Str) : List Glob := (Str.lines text).filterMap parseGlob

/-- `read_globs`, of a file that can be read. -/
def MimeDb.readGlobs (db : MimeDb) (text : Str) : MimeDb :=
  let db := (globLines text).foldl (MimeDb.add lower) db
  { db with globs := db.globs.insertionSort Glob.before }

/-- `load`, of the files there are. -/
def MimeDb.load (texts : List Str) : MimeDb :=
  texts.foldl (MimeDb.readGlobs lower) { literals := fun _ => none, extensions := fun _ => none, globs := [] }

/-- The loop over the dots of the name in lower case. -/
def MimeDb.byExtension (db : MimeDb) (name : Str) : Str → Option Str
  | [] => none
  | c :: ext =>
    if c = '.' then
      match db.extensions ext with
      | some g =>
        if !g.caseSensitive || g.pattern.tail.isSuffixOf name then some g.mime
        else byExtension db name ext
      | none => byExtension db name ext
    else byExtension db name ext

/-- Whether a line's pattern matches a name. -/
def Glob.hits (name : Str) (g : Glob) : Bool :=
  if g.caseSensitive then globMatch g.pattern name else globMatch (lower g.pattern) (lower name)

/-- `by_name`. -/
def MimeDb.byName (db : MimeDb) (name : Str) : Option Str :=
  match db.literals name with
  | some mime => some mime
  | none =>
    match db.byExtension name (lower name) with
    | some mime => some mime
    | none => (db.globs.find? (Glob.hits lower name)).map Glob.mime

/-! ## Matching -/

theorem matchesFrom_plain {turns : ℕ} {p : Str} (hp : ∀ c ∈ p, isWildcard c = false)
    (hturns : p.length < turns) (n : Str) : matchesFrom turns p n = decide (n = p) := by
  induction p generalizing turns n with
  | nil =>
    obtain ⟨turns, rfl⟩ := Nat.exists_eq_add_of_lt hturns
    cases n <;> simp [matchesFrom]
  | cons c p ih =>
    obtain ⟨turns, rfl⟩ := Nat.exists_eq_add_of_lt hturns
    obtain ⟨hc, hps⟩ := List.forall_mem_cons.1 hp
    simp only [isWildcard, Bool.or_eq_false_iff, decide_eq_false_iff_not] at hc
    obtain ⟨⟨hstar, hany⟩, hset⟩ := hc
    cases n with
    | nil => simp [matchesFrom, hstar]
    | cons x n =>
      rw [matchesFrom, if_neg hstar, if_neg hany, if_neg hset]
      by_cases hx : x = c
      · subst hx
        rw [if_neg (not_not_intro rfl), ih hps (by rw [List.length_cons]; omega)]
        simp
      · rw [if_pos hx]
        simp [hx]

theorem matchesFrom_star (turns : ℕ) (rest n : Str) :
    matchesFrom (turns + 1) ('*' :: rest) n =
      if rest.dropWhile (· = '*') = [] then true
      else n.tails.any (matchesFrom turns (rest.dropWhile (· = '*'))) := by
  cases n <;> rfl

/-- A pattern without wildcards matches itself. -/
theorem globMatch_plain {p : Str} (hp : ∀ c ∈ p, isWildcard c = false) (n : Str) :
    globMatch p n = decide (n = p) := matchesFrom_plain hp (Nat.lt_succ_self _) n

/-- `*.` and no further wildcard matches what ends so. -/
theorem globMatch_extension {ext : Str} (hext : ∀ c ∈ ext, isWildcard c = false) (n : Str) :
    globMatch ('*' :: '.' :: ext) n = true ↔ '.' :: ext <:+ n := by
  have hdot : ∀ c ∈ '.' :: ext, isWildcard c = false := List.forall_mem_cons.2 ⟨by decide, hext⟩
  have hdrop : ('.' :: ext).dropWhile (· = '*') = '.' :: ext := List.dropWhile_cons_of_neg (by decide)
  rw [globMatch, List.length_cons, matchesFrom_star, hdrop, if_neg (List.cons_ne_nil _ _)]
  simp only [List.any_eq_true, List.mem_tails, matchesFrom_plain hdot (Nat.lt_succ_self _),
    decide_eq_true_eq]
  constructor
  · intro h
    obtain ⟨t, ht, rfl⟩ := h
    exact ht
  · exact fun h => ⟨_, h, rfl⟩

theorem eq_of_plainExtension {p ext : Str} (h : plainExtension p = some ext) :
    p = '*' :: '.' :: ext ∧ ∀ c ∈ ext, isWildcard c = false := by
  rcases p with _ | ⟨star, _ | ⟨dot, rest⟩⟩
  · exact nomatch h
  · exact nomatch h
  · rw [plainExtension] at h
    split at h
    · next hif =>
      obtain ⟨rfl, rfl, hrest⟩ := hif
      obtain rfl := Option.some.inj h
      refine ⟨rfl, fun c hc => ?_⟩
      simp only [Bool.not_eq_true', List.any_eq_false, Bool.or_eq_true, not_or] at hrest
      simpa using (hrest c hc).1
    · exact nomatch h

/-- What is used of `to_lowercase`. -/
structure Lowercase : Prop where
  extension : ∀ ext, lower ('*' :: '.' :: ext) = '*' :: '.' :: lower ext
  wildcard : ∀ s, ∀ c ∈ lower s, isWildcard c = true → c ∈ s

variable {lower} {g : Glob} {name : Str}

theorem Lowercase.plain (hlower : Lowercase lower) {s : Str} (hs : ∀ c ∈ s, isWildcard c = false) :
    ∀ c ∈ lower s, isWildcard c = false := by
  intro c hc
  by_contra h
  rw [Bool.not_eq_false] at h
  rw [hs c (hlower.wildcard s c hc h)] at h
  exact nomatch h

/-- A line that is a literal. -/
def Glob.Literal (g : Glob) : Prop :=
  plainExtension g.pattern = none ∧ g.pattern.any isWildcard = false

/-- A line that is scanned for. -/
def Glob.Scanned (g : Glob) : Prop :=
  plainExtension g.pattern = none ∧ g.pattern.any isWildcard = true

theorem hits_literal (hlower : Lowercase lower) (hg : g.Literal) (hname : g.pattern = name) :
    g.hits lower name = true := by
  have hplain : ∀ c ∈ g.pattern, isWildcard c = false := by simpa using hg.2
  subst hname
  rw [Glob.hits]
  split
  · rw [globMatch_plain hplain]
    simp
  · rw [globMatch_plain (hlower.plain hplain)]
    simp

/-- A plain extension matches the names that end in its key, in lower case or as they are spelled. -/
theorem hits_extension (hlower : Lowercase lower) {key : Str} (hkey : g.key lower = some key) :
    g.hits lower name = true ↔ '.' :: key <:+ if g.caseSensitive then name else lower name := by
  obtain ⟨ext, hext, rfl⟩ := Option.map_eq_some_iff.1 hkey
  obtain ⟨hp, hplain⟩ := eq_of_plainExtension hext
  rw [Glob.hits]
  split
  · rw [hp, globMatch_extension hplain]
  · rw [hp, hlower.extension, globMatch_extension (hlower.plain hplain)]

/-! ## The indexes -/

/-- The line that stands under a key: the first of the heaviest. -/
def Wins (lower : Str → Str) (gs : List Glob) (key : Str) (g : Glob) : Prop :=
  g.key lower = some key ∧ ∃ before after, gs = before ++ g :: after ∧
    (∀ h ∈ before, h.key lower = some key → h.weight < g.weight) ∧
    ∀ h ∈ after, h.key lower = some key → h.weight ≤ g.weight

/-- What the database holds of the lines it was read from. -/
structure Indexes (lower : Str → Str) (gs : List Glob) (db : MimeDb) : Prop where
  literal : ∀ n m, db.literals n = some m → ∃ g ∈ gs, g.Literal ∧ g.pattern = n ∧ g.mime = m
  literal_isSome : ∀ g ∈ gs, g.Literal → (db.literals g.pattern).isSome
  extension : ∀ key g, db.extensions key = some g ↔ Wins lower gs key g
  heaviest : ∀ g ∈ gs, ∀ key, g.key lower = some key →
    ∃ w, db.extensions key = some w ∧ g.weight ≤ w.weight
  scanned : ∀ g, g ∈ db.globs ↔ g ∈ gs ∧ g.Scanned

theorem Wins.mem {gs : List Glob} {key : Str} (h : Wins lower gs key g) : g ∈ gs := by
  obtain ⟨-, before, after, rfl, -⟩ := h
  simp

theorem Wins.concat {gs : List Glob} {key : Str} (h : Wins lower gs key g) {new : Glob}
    (hnew : new.key lower = some key → new.weight ≤ g.weight) : Wins lower (gs ++ [new]) key g := by
  obtain ⟨hkey, before, after, rfl, hbefore, hafter⟩ := h
  refine ⟨hkey, before, after ++ [new], by simp, hbefore, fun h hh => ?_⟩
  rcases List.mem_append.1 hh with hh | hh
  · exact hafter h hh
  · obtain rfl := List.mem_singleton.1 hh
    exact hnew

/-- The winner of a list with one more line is that line, where it is heavier than all others, or the
winner it was. -/
theorem Wins.of_concat {gs : List Glob} {key : Str} {new : Glob}
    (h : Wins lower (gs ++ [new]) key g) :
    (g = new ∧ ∀ h ∈ gs, h.key lower = some key → h.weight < new.weight) ∨
      (Wins lower gs key g ∧ (new.key lower = some key → new.weight ≤ g.weight)) := by
  obtain ⟨hkey, before, after, hsplit, hbefore, hafter⟩ := h
  rcases List.eq_nil_or_concat after with rfl | ⟨after, last, rfl⟩
  · obtain ⟨rfl, hlast⟩ := List.append_inj' hsplit rfl
    obtain rfl : new = g := (List.cons.inj hlast).1
    exact Or.inl ⟨rfl, hbefore⟩
  · rw [List.concat_eq_append, ← List.cons_append, ← List.append_assoc] at hsplit
    obtain ⟨rfl, hlast⟩ := List.append_inj' hsplit rfl
    obtain rfl : new = last := (List.cons.inj hlast).1
    refine Or.inr ⟨⟨hkey, before, after, rfl, hbefore, fun h hh => hafter h ?_⟩, hafter new ?_⟩
    · simp [hh]
    · simp

/-- A line that is heavier than all others of its key wins. -/
theorem Wins.concat_heaviest {gs : List Glob} {key : Str} {new : Glob}
    (hkey : new.key lower = some key) (h : ∀ g ∈ gs, g.key lower = some key → g.weight < new.weight) :
    Wins lower (gs ++ [new]) key g ↔ new = g := by
  constructor
  · intro hg
    rcases hg.of_concat with ⟨rfl, -⟩ | ⟨hg, hle⟩
    · rfl
    · have hlt := h g hg.mem hg.1
      have hge := hle hkey
      omega
  · rintro rfl
    exact ⟨hkey, gs, [], rfl, h, by simp⟩

/-- A line of another key changes nothing. -/
theorem Wins.concat_other {gs : List Glob} {new : Glob} {key : Str} (hne : new.key lower ≠ some key) :
    Wins lower (gs ++ [new]) key g ↔ Wins lower gs key g := by
  constructor
  · intro h
    rcases h.of_concat with ⟨rfl, -⟩ | ⟨h, -⟩
    · exact absurd h.1 hne
    · exact h
  · exact fun h => h.concat fun heq => absurd heq hne

theorem key_eq_none : g.key lower = none ↔ plainExtension g.pattern = none := by
  rw [Glob.key, Option.map_eq_none_iff]

/-- A line with a key goes into the extensions, where it is heavier than what is there. -/
theorem Indexes.add_extension {gs : List Glob} {db : MimeDb} (h : Indexes lower gs db) {new : Glob}
    {key : Str} (hkey : new.key lower = some key) : Indexes lower (gs ++ [new]) (db.add lower new) := by
  have hother : ∀ {k}, k ≠ key → new.key lower ≠ some k := fun hk heq =>
    hk (Option.some.inj (heq.symm.trans hkey))
  have hliteral : ∀ n m, db.literals n = some m → ∃ g ∈ gs ++ [new], g.Literal ∧ g.pattern = n ∧ g.mime = m := by
    intro n m hn
    obtain ⟨g, hg, hrest⟩ := h.literal n m hn
    exact ⟨g, List.mem_append_left _ hg, hrest⟩
  have hold : ∀ g ∈ gs ++ [new], plainExtension g.pattern = none → g ∈ gs := by
    intro g hg hnone
    rcases List.mem_append.1 hg with hg | hg
    · exact hg
    · obtain rfl := List.mem_singleton.1 hg
      exact nomatch hkey.symm.trans (key_eq_none.2 hnone)
  have hscanned : ∀ g, g ∈ db.globs ↔ g ∈ gs ++ [new] ∧ g.Scanned := fun g =>
    (h.scanned g).trans ⟨fun hg => ⟨List.mem_append_left _ hg.1, hg.2⟩,
      fun hg => ⟨hold g hg.1 hg.2.1, hg.2⟩⟩
  rw [MimeDb.add, hkey]
  dsimp only
  split
  · next hbetter =>
    have hlighter : ∀ g ∈ gs, g.key lower = some key → g.weight < new.weight := by
      intro g hg hgkey
      obtain ⟨w, hw, hle⟩ := h.heaviest g hg key hgkey
      rw [hw, Option.all_some, decide_eq_true_eq] at hbetter
      omega
    refine ⟨hliteral, fun g hg hl => h.literal_isSome g (hold g hg hl.1) hl, fun k g => ?_,
      fun g hg k hgkey => ?_, hscanned⟩ <;> dsimp only <;> by_cases hk : k = key
    · subst hk
      rw [Function.update_self, Option.some.injEq]
      exact (Wins.concat_heaviest hkey hlighter).symm
    · rw [Function.update_of_ne hk, h.extension, Wins.concat_other (hother hk)]
    · subst hk
      refine ⟨new, Function.update_self _ _ _, ?_⟩
      rcases List.mem_append.1 hg with hg | hg
      · exact (hlighter g hg hgkey).le
      · exact (congrArg Glob.weight (List.mem_singleton.1 hg)).le
    · rw [Function.update_of_ne hk]
      rcases List.mem_append.1 hg with hg | hg
      · exact h.heaviest g hg k hgkey
      · obtain rfl := List.mem_singleton.1 hg
        exact absurd hgkey (hother hk)
  · next hbetter =>
    obtain ⟨w, hw, hle⟩ : ∃ w, db.extensions key = some w ∧ new.weight ≤ w.weight := by
      cases hw : db.extensions key with
      | none =>
        rw [hw] at hbetter
        exact absurd rfl hbetter
      | some w =>
        rw [hw, Option.all_some, decide_eq_true_eq] at hbetter
        exact ⟨w, rfl, by omega⟩
    have hwins := (h.extension key w).1 hw
    refine ⟨hliteral, fun g hg hl => h.literal_isSome g (hold g hg hl.1) hl, fun k g => ?_,
      fun g hg k hgkey => ?_, hscanned⟩
    · rw [h.extension]
      constructor
      · intro hg
        refine hg.concat fun hk => ?_
        obtain rfl : key = k := Option.some.inj (hkey.symm.trans hk)
        obtain rfl : w = g := Option.some.inj (hw.symm.trans ((h.extension key g).2 hg))
        exact hle
      · intro hg
        rcases hg.of_concat with ⟨rfl, hlt⟩ | ⟨hg, -⟩
        · obtain rfl : key = k := Option.some.inj (hkey.symm.trans hg.1)
          have := hlt w hwins.mem hwins.1
          omega
        · exact hg
    · rcases List.mem_append.1 hg with hg | hg
      · exact h.heaviest g hg k hgkey
      · obtain rfl := List.mem_singleton.1 hg
        obtain rfl : key = k := Option.some.inj (hkey.symm.trans hgkey)
        exact ⟨w, hw, hle⟩

/-- Every line goes into one index. -/
theorem Indexes.add {gs : List Glob} {db : MimeDb} (h : Indexes lower gs db) (new : Glob) :
    Indexes lower (gs ++ [new]) (db.add lower new) := by
  cases hkey : new.key lower with
  | some key => exact h.add_extension hkey
  | none =>
    have hnone := key_eq_none.1 hkey
    have hextension : ∀ key g, db.extensions key = some g ↔ Wins lower (gs ++ [new]) key g :=
      fun key g => (h.extension key g).trans
        (Wins.concat_other (by rw [hkey]; exact nofun)).symm
    have hheaviest : ∀ g ∈ gs ++ [new], ∀ key, g.key lower = some key →
        ∃ w, db.extensions key = some w ∧ g.weight ≤ w.weight := by
      intro g hg key hgkey
      rcases List.mem_append.1 hg with hg | hg
      · exact h.heaviest g hg key hgkey
      · obtain rfl := List.mem_singleton.1 hg
        exact nomatch hkey.symm.trans hgkey
    rw [MimeDb.add, hkey]
    dsimp only
    split
    · next hwild =>
      have hlit : new.Literal := ⟨hnone, by simpa using hwild⟩
      refine ⟨fun n m hn => ?_, fun g hg hl => ?_, hextension, hheaviest, fun g => ?_⟩ <;> dsimp only at *
      · by_cases hname : n = new.pattern
        · subst hname
          rw [Function.update_self] at hn
          exact ⟨new, by simp, hlit, rfl, Option.some.inj hn⟩
        · rw [Function.update_of_ne hname] at hn
          obtain ⟨g, hg, hrest⟩ := h.literal n m hn
          exact ⟨g, List.mem_append_left _ hg, hrest⟩
      · by_cases hname : g.pattern = new.pattern
        · rw [hname, Function.update_self]
          rfl
        · rw [Function.update_of_ne hname]
          rcases List.mem_append.1 hg with hg | hg
          · exact h.literal_isSome g hg hl
          · exact absurd (congrArg Glob.pattern (List.mem_singleton.1 hg)) hname
      · rw [h.scanned, List.mem_append, List.mem_singleton]
        constructor
        · exact fun hg => ⟨Or.inl hg.1, hg.2⟩
        · rintro ⟨hg | rfl, hs⟩
          · exact ⟨hg, hs⟩
          · exact nomatch hlit.2.symm.trans hs.2
    · next hwild =>
      have hscan : new.Scanned := ⟨hnone, by simpa using hwild⟩
      refine ⟨fun n m hn => ?_, fun g hg hl => ?_, hextension, hheaviest, fun g => ?_⟩ <;> dsimp only at *
      · obtain ⟨g, hg, hrest⟩ := h.literal n m hn
        exact ⟨g, List.mem_append_left _ hg, hrest⟩
      · rcases List.mem_append.1 hg with hg | hg
        · exact h.literal_isSome g hg hl
        · obtain rfl := List.mem_singleton.1 hg
          exact nomatch hl.2.symm.trans hscan.2
      · rw [List.mem_append, h.scanned, List.mem_singleton, List.mem_append, List.mem_singleton]
        constructor
        · rintro (hg | rfl)
          · exact ⟨Or.inl hg.1, hg.2⟩
          · exact ⟨Or.inr rfl, hscan⟩
        · rintro ⟨hg | rfl, hs⟩
          · exact Or.inl ⟨hg, hs⟩
          · exact Or.inr rfl

theorem Indexes.readGlobs {gs : List Glob} {db : MimeDb} (h : Indexes lower gs db) (text : Str) :
    Indexes lower (gs ++ globLines text) (db.readGlobs lower text) := by
  have hfold : ∀ (new gs : List Glob) (db : MimeDb), Indexes lower gs db →
      Indexes lower (gs ++ new) (new.foldl (MimeDb.add lower) db) := by
    intro new
    induction new with
    | nil => exact fun gs db h => (List.append_nil gs).symm ▸ h
    | cons g new ih =>
      intro gs db h
      rw [List.foldl_cons, List.append_cons]
      exact ih _ _ (h.add g)
  have hall := hfold (globLines text) gs db h
  exact ⟨hall.literal, hall.literal_isSome, hall.extension, hall.heaviest, fun g => by
    rw [MimeDb.readGlobs, List.mem_insertionSort, hall.scanned]⟩

/-- **The indexes of a database** are those of all lines of its files. -/
theorem indexes_load (lower : Str → Str) (texts : List Str) :
    Indexes lower (texts.flatMap globLines) (MimeDb.load lower texts) := by
  have hfold : ∀ (texts : List Str) gs (db : MimeDb), Indexes lower gs db →
      Indexes lower (gs ++ texts.flatMap globLines) (texts.foldl (MimeDb.readGlobs lower) db) := by
    intro texts
    induction texts with
    | nil => exact fun gs db h => (List.append_nil gs).symm ▸ h
    | cons text texts ih =>
      intro gs db h
      rw [List.foldl_cons, List.flatMap_cons, ← List.append_assoc]
      exact ih _ _ (h.readGlobs text)
  refine hfold texts [] _ ⟨by simp, by simp, fun key g => ?_, by simp, by simp⟩
  exact ⟨nofun, fun h => absurd h.mem List.not_mem_nil⟩

/-! ## The search -/

/-- Whether the loop over the dots stops at a line. -/
def Stops (db : MimeDb) (name rest : Str) (g : Glob) : Prop :=
  ∃ ext, '.' :: ext <:+ rest ∧ db.extensions ext = some g ∧
    (g.caseSensitive = true → g.pattern.tail <:+ name)

theorem Stops.cons {db : MimeDb} {rest : Str} (h : Stops db name rest g) (c : Char) :
    Stops db name (c :: rest) g := by
  obtain ⟨ext, hext, hrest⟩ := h
  exact ⟨ext, hext.trans (List.suffix_cons c rest), hrest⟩

theorem byExtension_some {db : MimeDb} {rest m : Str} (h : db.byExtension name rest = some m) :
    ∃ g, Stops db name rest g ∧ g.mime = m := by
  induction rest with
  | nil => exact nomatch h
  | cons c ext ih =>
    have hlater : db.byExtension name ext = some m → ∃ g, Stops db name (c :: ext) g ∧ g.mime = m := by
      intro h
      obtain ⟨g, hg, hm⟩ := ih h
      exact ⟨g, hg.cons c, hm⟩
    rw [MimeDb.byExtension] at h
    split at h
    · next hc =>
      subst hc
      split at h
      · next g hg =>
        split at h
        · next hcase =>
          refine ⟨g, ⟨ext, List.suffix_rfl, hg, fun hcs => ?_⟩, Option.some.inj h⟩
          simpa [hcs] using hcase
        · exact hlater h
      · exact hlater h
    · exact hlater h

theorem byExtension_isSome {db : MimeDb} {rest : Str} (h : Stops db name rest g) :
    (db.byExtension name rest).isSome := by
  obtain ⟨ext, hext, hg, hcase⟩ := h
  induction rest with
  | nil => exact absurd hext.length_le (by simp)
  | cons c rest ih =>
    rw [MimeDb.byExtension]
    rcases List.suffix_cons_iff.1 hext with heq | hext
    · obtain ⟨rfl, rfl⟩ := List.cons.inj heq
      have hstop : (!g.caseSensitive || g.pattern.tail.isSuffixOf name) = true := by
        cases hcs : g.caseSensitive with
        | false => rfl
        | true => simpa [hcs] using hcase hcs
      rw [if_pos rfl, hg]
      dsimp only
      rw [if_pos hstop]
      rfl
    · have hlater := ih hext
      split
      · split
        · split
          · rfl
          · exact hlater
        · exact hlater
      · exact hlater

/-- Some line of the database can be come to: a literal spelled as the name is; a line that is
scanned for; or the line that stands under a key with which the name in lower case ends, and the
name itself too where that line compares case. -/
def Reachable (lower : Str → Str) (gs : List Glob) (name : Str) : Prop :=
  (∃ g ∈ gs, g.Literal ∧ g.pattern = name) ∨
  (∃ g ∈ gs, g.Scanned ∧ g.hits lower name = true) ∨
  ∃ key g, Wins lower gs key g ∧ '.' :: key <:+ lower name ∧
    (g.caseSensitive = true → '.' :: key <:+ name)

theorem stops_iff {gs : List Glob} {db : MimeDb} (h : Indexes lower gs db) :
    Stops db name (lower name) g ↔ ∃ key, Wins lower gs key g ∧ '.' :: key <:+ lower name ∧
      (g.caseSensitive = true → '.' :: key <:+ name) := by
  have htail : ∀ {key}, Wins lower gs key g → g.caseSensitive = true → g.pattern.tail = '.' :: key := by
    intro key hwins hcs
    obtain ⟨ext, hext, hkey⟩ := Option.map_eq_some_iff.1 hwins.1
    rw [if_pos hcs] at hkey
    rw [(eq_of_plainExtension hext).1, hkey]
    rfl
  constructor
  · intro hstop
    obtain ⟨key, hkey, hg, hcase⟩ := hstop
    have hwins := (h.extension key g).1 hg
    exact ⟨key, hwins, hkey, fun hcs => htail hwins hcs ▸ hcase hcs⟩
  · intro hwins
    obtain ⟨key, hwins, hkey, hcase⟩ := hwins
    exact ⟨key, hkey, (h.extension key g).2 hwins, fun hcs => (htail hwins hcs).symm ▸ hcase hcs⟩

theorem find_globs_isSome {db : MimeDb} :
    ((db.globs.find? (Glob.hits lower name)).map Glob.mime).isSome ↔
      ∃ g ∈ db.globs, g.hits lower name = true := by
  rw [Option.isSome_map, List.find?_isSome]

/-- What is found is the type of a line that matches. -/
theorem byName_sound (hlower : Lowercase lower) {gs : List Glob} {db : MimeDb}
    (h : Indexes lower gs db) {m : Str} (hm : db.byName lower name = some m) :
    ∃ g ∈ gs, g.hits lower name = true ∧ g.mime = m := by
  rw [MimeDb.byName] at hm
  split at hm
  · next m' hlit =>
    obtain ⟨g, hg, hgl, hname, hmime⟩ := h.literal name m' hlit
    exact ⟨g, hg, hits_literal hlower hgl hname, hmime.trans (Option.some.inj hm)⟩
  split at hm
  · next m' hext =>
    obtain ⟨g, hstop, hmime⟩ := byExtension_some hext
    obtain ⟨key, hwins, hkey, hcase⟩ := (stops_iff h).1 hstop
    refine ⟨g, hwins.mem, (hits_extension hlower hwins.1).2 ?_, hmime.trans (Option.some.inj hm)⟩
    split
    · next hcs => exact hcase hcs
    · exact hkey
  · obtain ⟨g, hg, rfl⟩ := Option.map_eq_some_iff.1 hm
    exact ⟨g, ((h.scanned g).1 (List.mem_of_find?_eq_some hg)).1, List.find?_some hg, rfl⟩

/-- Something is found exactly where a line can be come to. -/
theorem byName_isSome_iff {gs : List Glob} {db : MimeDb} (h : Indexes lower gs db) :
    (db.byName lower name).isSome ↔ Reachable lower gs name := by
  have hliteral : (db.literals name).isSome ↔ ∃ g ∈ gs, g.Literal ∧ g.pattern = name := by
    constructor
    · intro hsome
      obtain ⟨m, hm⟩ := Option.isSome_iff_exists.1 hsome
      obtain ⟨g, hg, hl, hname, -⟩ := h.literal name m hm
      exact ⟨g, hg, hl, hname⟩
    · rintro ⟨g, hg, hl, rfl⟩
      exact h.literal_isSome g hg hl
  have hextension : (db.byExtension name (lower name)).isSome ↔ ∃ key g, Wins lower gs key g ∧
      '.' :: key <:+ lower name ∧ (g.caseSensitive = true → '.' :: key <:+ name) := by
    constructor
    · intro hsome
      obtain ⟨m, hm⟩ := Option.isSome_iff_exists.1 hsome
      obtain ⟨g, hstop, -⟩ := byExtension_some hm
      obtain ⟨key, hwins⟩ := (stops_iff h).1 hstop
      exact ⟨key, g, hwins⟩
    · rintro ⟨key, g, hwins⟩
      exact byExtension_isSome ((stops_iff h).2 ⟨key, hwins⟩)
  have hscan : ((db.globs.find? (Glob.hits lower name)).map Glob.mime).isSome ↔
      ∃ g ∈ gs, g.Scanned ∧ g.hits lower name = true := by
    rw [find_globs_isSome]
    simp only [h.scanned, and_assoc]
  rw [Reachable, ← hliteral, ← hscan, ← hextension, MimeDb.byName]
  cases db.literals name with
  | some m => simp
  | none =>
    cases db.byExtension name (lower name) with
    | some m => simp
    | none => simp

/-! ## Lower case -/

/-- Unicode's tables of lower case, of letters and of what may stand between letters, with what they
have of the characters of patterns. -/
structure CaseTable where
  lower : Char → Str
  cased : Char → Bool
  caseIgnorable : Char → Bool
  lower_star : lower '*' = ['*']
  lower_dot : lower '.' = ['.']
  star_uncased : cased '*' = false
  dot_uncased : cased '.' = false
  lower_wildcard : ∀ c, ∀ d ∈ lower c, isWildcard d = true → d = c

namespace CaseTable

variable (T : CaseTable)

/-- `case_ignorable_then_cased`. -/
def thenCased (s : Str) : Bool := (s.dropWhile T.caseIgnorable).head?.any T.cased

/-- The loop of `to_lowercase`; `before` is what it has passed, the last character first. A sigma at
the end of a word has a form of its own. -/
def lowerFrom : Str → Str → Str
  | _, [] => []
  | before, c :: rest =>
    (if c = 'Σ' then [if T.thenCased before && !T.thenCased rest then 'ς' else 'σ'] else T.lower c) ++
      lowerFrom (c :: before) rest

/-- `str::to_lowercase`. -/
def toLowercase (s : Str) : Str := T.lowerFrom [] s

theorem thenCased_append (before : Str) :
    T.thenCased (before ++ ['.', '*']) = T.thenCased before := by
  induction before with
  | nil =>
    simp only [thenCased, List.nil_append, List.dropWhile_cons, List.dropWhile_nil, List.head?_nil]
    split
    · split
      · rfl
      · simp [T.star_uncased]
    · simp [T.dot_uncased]
  | cons c before ih =>
    by_cases hc : T.caseIgnorable c = true
    · simp only [thenCased, List.cons_append, List.dropWhile_cons_of_pos hc] at ih ⊢
      exact ih
    · simp only [thenCased, List.cons_append, List.dropWhile_cons_of_neg hc, List.head?_cons]

theorem lowerFrom_append (before s : Str) :
    T.lowerFrom (before ++ ['.', '*']) s = T.lowerFrom before s := by
  induction s generalizing before with
  | nil => rfl
  | cons c s ih =>
    rw [lowerFrom, lowerFrom, thenCased_append, ← List.cons_append, ih]

theorem mem_lowerFrom {before s : Str} {d : Char} (hd : d ∈ T.lowerFrom before s)
    (hwild : isWildcard d = true) : d ∈ s := by
  induction s generalizing before with
  | nil => exact hd
  | cons c s ih =>
    rw [lowerFrom, List.mem_append] at hd
    rcases hd with hd | hd
    · split at hd
      · obtain rfl := List.mem_singleton.1 hd
        split at hwild <;> exact absurd hwild (by decide)
      · exact T.lower_wildcard c d hd hwild ▸ List.mem_cons_self
    · exact List.mem_cons_of_mem c (ih hd)

theorem lowercase : Lowercase T.toLowercase where
  extension ext := by
    have hstar : T.lowerFrom [] ('*' :: '.' :: ext) = '*' :: '.' :: T.lowerFrom ['.', '*'] ext := by
      rw [lowerFrom, lowerFrom, if_neg (by decide), if_neg (by decide), T.lower_star, T.lower_dot]
      rfl
    rw [toLowercase, toLowercase, hstar, ← List.nil_append ['.', '*'], lowerFrom_append]
  wildcard _ _ hd hwild := T.mem_lowerFrom hd hwild

end CaseTable

/-- **Where a type is found by name**: what is found is the type of a line that matches; and a type is
found whenever a line matches exactly if, where one does, a line can be come to. -/
theorem by_name_found (T : CaseTable) (texts : List Str) (name : Str) :
    (∀ m, (MimeDb.load T.toLowercase texts).byName T.toLowercase name = some m →
      ∃ g ∈ texts.flatMap globLines, g.hits T.toLowercase name = true ∧ g.mime = m) ∧
    ((((MimeDb.load T.toLowercase texts).byName T.toLowercase name).isSome ↔
        ∃ g ∈ texts.flatMap globLines, g.hits T.toLowercase name = true) ↔
      ((∃ g ∈ texts.flatMap globLines, g.hits T.toLowercase name = true) →
        Reachable T.toLowercase (texts.flatMap globLines) name)) := by
  have hindex := indexes_load T.toLowercase texts
  refine ⟨fun m => byName_sound T.lowercase hindex, ?_⟩
  have hsound : Reachable T.toLowercase (texts.flatMap globLines) name →
      ∃ g ∈ texts.flatMap globLines, g.hits T.toLowercase name = true := by
    intro hreach
    obtain ⟨m, hm⟩ := Option.isSome_iff_exists.1 ((byName_isSome_iff hindex).2 hreach)
    obtain ⟨g, hg, hits, -⟩ := byName_sound T.lowercase hindex hm
    exact ⟨g, hg, hits⟩
  rw [byName_isSome_iff hindex]
  exact ⟨fun h => h.2, fun h => ⟨hsound, h⟩⟩

theorem eq_of_toLower {c d : Char} (h : d = c.toLower) (hd : isWildcard d = true) : d = c := by
  have hletters : ∀ n < 91, 65 ≤ n → isWildcard (Char.ofNat n).toLower = false := by decide
  by_cases hc : c.val ≥ 'A'.val ∧ c.val ≤ 'Z'.val
  · have hlow : 65 ≤ c.toNat := UInt32.le_iff_toNat_le.1 hc.1
    have hhigh : c.toNat ≤ 90 := UInt32.le_iff_toNat_le.1 hc.2
    have hnot := hletters c.toNat (by omega) hlow
    rw [Char.ofNat_toNat, ← h] at hnot
    exact nomatch hnot.symm.trans hd
  · have hsame : c.toLower = c := dif_neg hc
    exact h.trans hsame

/-- The tables of ASCII. -/
def asciiTable : CaseTable where
  lower c := [c.toLower]
  cased := Char.isAlpha
  caseIgnorable c := ['.', ':', '^', Char.ofNat 39, Char.ofNat 96].contains c
  lower_star := rfl
  lower_dot := rfl
  star_uncased := rfl
  dot_uncased := rfl
  lower_wildcard _ _ hd hwild := eq_of_toLower (List.mem_singleton.1 hd) hwild

/-- A literal in lower case does not find the name with a capital, and an extension that compares case
is not found in capitals. -/
theorem by_name_misses :
    (MimeDb.load asciiTable.toLowercase ["50:text/x-makefile:makefile".toList]).byName
        asciiTable.toLowercase "Makefile".toList = none ∧
      (∃ g ∈ globLines "50:text/x-makefile:makefile".toList,
        g.hits asciiTable.toLowercase "Makefile".toList = true) ∧
      (MimeDb.load asciiTable.toLowercase ["50:text/x-c++src:*.C:cs".toList]).byName
        asciiTable.toLowercase "a.C".toList = none ∧
      ∃ g ∈ globLines "50:text/x-c++src:*.C:cs".toList,
        g.hits asciiTable.toLowercase "a.C".toList = true := by
  decide

end Aurade.Desktop
