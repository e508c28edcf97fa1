import Mathlib.Data.List.TakeWhile
import Aurade.Foundations.Act
import Aurade.Stores.Url

/-!
# Requests on a connection

`readRequest` reads one request from the bytes that are left on a connection: a line, headers up to an
empty line, and as many bytes of a body as `Content-Length` says. What it leaves is what the next
request is read from.

A request that is sent (`Wire`) is rendered and read back here, one after another (`Answered`). A
length that is no number is read as none, so what should be a body is the next request.
-/

namespace Aurade.Daemon

open Stores

def maxRequestLine : ℕ := 8 * 1024

def maxHeaders : ℕ := 64

def maxHeaderBytes : ℕ := 16 * 1024

def maxBody : ℕ := 16 * 1024 * 1024

/-- What went wrong before a handler was reached. -/
inductive ParseError
  | closed | tooLarge | malformed | unsupported
  deriving DecidableEq

/-- One parsed request. -/
structure Request where
  method : Bytes
  path : Bytes
  query : Params
  headers : Params
  body : Bytes
  keepAlive : Bool

/-! ## Reading -/

/-- The loop of `read_line`, with what is read of the line: up to a newline, or to where the
connection ends, which is an error where it is `broken`. -/
def readLineFrom (broken : Bool) (cap : ℕ) (raw : Bytes) : Bytes → Except ParseError Bytes × Bytes
  | [] => (if broken then .error .malformed else .ok raw, [])
  | b :: rest =>
    if cap < raw.length + 1 then (.error .tooLarge, rest)
    else if b = newline then (.ok (raw ++ [b]), rest)
    else readLineFrom broken cap (raw ++ [b]) rest

/-- `read_line`, before the bytes are taken for a text. -/
def readLine (broken : Bool) (cap : ℕ) : Act Bytes ParseError Bytes := readLineFrom broken cap []

/-- `read_exact`. -/
def readExact (n : ℕ) : Act Bytes ParseError Bytes := fun s =>
  if n ≤ s.length then (.ok (s.take n), s.drop n) else (.error .malformed, [])

/-- A line without the line end it was read with. -/
def trimNewlines (line : Bytes) : Bytes :=
  (line.reverse.dropWhile fun b => b = 13 || b = newline).reverse

/-- A header's line as it is looked at and counted. -/
def headerOf (raw : Bytes) : Bytes := trimNewlines (Utf8.lossy raw)

/-- The name under which a header is kept. -/
def headerName (name : Bytes) : Bytes := (trimBytes name).map asciiLower

/-- The loop over the headers, so many turns of it at most. -/
def readHeaders (broken : Bool) : ℕ → Params → ℕ → Act Bytes ParseError Params
  | 0, _, _ => Act.fail .malformed
  | turns + 1, headers, headerBytes => do
    let raw ← readLine broken maxRequestLine
    if raw = [] then Act.fail .malformed
    else
      let header := headerOf raw
      if header = [] then pure headers
      else
        let headerBytes := headerBytes + header.length
        if maxHeaders ≤ headers.size || maxHeaderBytes < headerBytes then Act.fail .tooLarge
        else match splitOnce 58 header with
          | none => Act.fail .malformed
          | some (name, value) =>
            readHeaders broken turns (headers.insert (headerName name) (trimBytes value)) headerBytes

/-- What stands before a body. -/
structure Head where
  method : Bytes
  target : Bytes
  version : Bytes
  headers : Params

/-- `read_request`, up to the empty line. A turn of the loop takes a byte at least. -/
def readHead (broken : Bool) : Act Bytes ParseError Head := do
  let line ← readLine broken maxRequestLine
  if line = [] then Act.fail .closed
  else
    let parts := (trimEnd (Utf8.lossy line)).splitOn 32
    let method := parts[0]?.getD []
    let target := parts[1]?.getD []
    let version := parts[2]?.getD (text "HTTP/1.1")
    if method = [] || target = [] then Act.fail .malformed
    else do
      let s ← Act.get
      let headers ← readHeaders broken (s.length + 1) ∅ 0
      pure ⟨method, target, version, headers⟩

/-- `parse::<usize>`: decimal digits, with a plus sign before them if need be. -/
def parseUsize (v : Bytes) : Option ℕ :=
  let digits := if 1 < v.length ∧ v.head? = some 43 then v.tail else v
  if digits ≠ [] ∧ digits.all isDigit ∧ parseDecimal digits < 2 ^ 64 then some (parseDecimal digits)
  else none

/-- A body that comes in chunks. -/
def Head.chunked (head : Head) : Bool :=
  head.headers[text "transfer-encoding"]?.any fun v => text "chunked" <:+: v.map asciiLower

/-- How long the body is taken to be. -/
def Head.length (head : Head) : ℕ :=
  (head.headers[text "content-length"]?.bind parseUsize).getD 0

/-- Whether the connection stays. -/
def Head.keepAlive (head : Head) : Bool :=
  match head.headers[text "connection"]?.map fun v => v.map asciiLower with
  | some v =>
    if text "close" <:+: v then false
    else if text "keep-alive" <:+: v then true
    else head.version ≠ text "HTTP/1.0"
  | none => head.version ≠ text "HTTP/1.0"

/-- `read_request`, from there on. Nothing where taking the target apart stops the program. -/
def readBody (head : Head) : Act Bytes ParseError (Option Request) :=
  if head.chunked then Act.fail .unsupported
  else if maxBody < head.length then Act.fail .tooLarge
  else do
    let body ← (if 0 < head.length then readExact head.length else pure [] : Act _ _ Bytes)
    pure ((splitTarget head.target).map fun t =>
      { method := head.method, path := t.1, query := t.2, headers := head.headers, body,
        keepAlive := head.keepAlive })

/-- `read_request`. -/
def readRequest (broken : Bool) : Act Bytes ParseError (Option Request) := do
  let head ← readHead broken
  readBody head

/-! ## Lines -/

section

variable {broken : Bool} {cap : ℕ}

/-- A line that fits is read up to its newline. -/
theorem readLine_line {line : Bytes} (hline : newline ∉ line) (hcap : line.length < cap)
    (rest : Bytes) : readLine broken cap (line ++ newline :: rest) = (.ok (line ++ [newline]), rest) := by
  have hfrom : ∀ (line raw : Bytes), newline ∉ line → raw.length + line.length < cap →
      readLineFrom broken cap raw (line ++ newline :: rest) =
        (.ok (raw ++ line ++ [newline]), rest) := by
    intro line
    induction line with
    | nil =>
      intro raw _ hlen
      rw [List.nil_append, readLineFrom, if_neg (by simp at hlen; omega), if_pos rfl, List.append_nil]
    | cons b line ih =>
      intro raw hmem hlen
      obtain ⟨hb, hline⟩ := not_or.1 (mt List.mem_cons.2 hmem)
      rw [List.length_cons] at hlen
      rw [List.cons_append, readLineFrom, if_neg (by omega), if_neg (Ne.symm hb),
        ih _ hline (by rw [List.length_append, List.length_singleton]; omega), List.append_assoc raw]
      rfl
  exact hfrom line [] hline (by simpa using hcap)

/-- What is read of a stream: a line with its newline, or all there is, or too much for a line. -/
theorem readLine_spec (s : Bytes) :
    (readLine broken cap).wp
      (fun raw s' => s = raw ++ s' ∧ raw.length ≤ cap ∧
        ((∃ line, raw = line ++ [newline] ∧ newline ∉ line) ∨ (s' = [] ∧ newline ∉ raw)))
      (fun _ s' => ∃ raw, s = raw ++ s' ∧ raw.length ≤ cap + 1) s := by
  have hfrom : ∀ (s raw : Bytes), newline ∉ raw → raw.length ≤ cap →
      Act.wp (readLineFrom broken cap raw)
        (fun out s' => raw ++ s = out ++ s' ∧ out.length ≤ cap ∧
          ((∃ line, out = line ++ [newline] ∧ newline ∉ line) ∨ (s' = [] ∧ newline ∉ out)))
        (fun _ s' => ∃ out, raw ++ s = out ++ s' ∧ out.length ≤ cap + 1) s := by
    intro s
    induction s with
    | nil =>
      intro raw hraw hlen
      unfold Act.wp
      rw [readLineFrom]
      cases broken with
      | true => exact ⟨raw, rfl, by omega⟩
      | false => exact ⟨rfl, hlen, Or.inr ⟨rfl, hraw⟩⟩
    | cons b s ih =>
      intro raw hraw hlen
      have hcut : raw ++ b :: s = raw ++ [b] ++ s := List.append_cons raw b s
      unfold Act.wp
      rw [readLineFrom]
      by_cases hcap : cap < raw.length + 1
      · rw [if_pos hcap]
        exact ⟨raw ++ [b], hcut, by rw [List.length_append, List.length_singleton]; omega⟩
      · rw [if_neg hcap]
        by_cases hb : b = newline
        · rw [if_pos hb]
          refine ⟨hcut, by rw [List.length_append, List.length_singleton]; omega, Or.inl ⟨raw, ?_, hraw⟩⟩
          rw [hb]
        · rw [if_neg hb]
          have hrest := ih (raw ++ [b])
            (by rw [List.mem_append, not_or]; exact ⟨hraw, by simpa using Ne.symm hb⟩)
            (by rw [List.length_append, List.length_singleton]; omega)
          rw [← hcut] at hrest
          exact hrest
  have hall := hfrom s [] List.not_mem_nil (Nat.zero_le cap)
  rwa [List.nil_append] at hall

theorem headerOf_line (line : Bytes) : headerOf (line ++ [newline]) = headerOf line := by
  rw [headerOf, headerOf, Utf8.lossy_append_ascii (by decide), trimNewlines,
    show Utf8.lossy [] = [] from rfl, List.reverse_append]
  rfl

end

/-! ## What a call takes from the stream -/

/-- At most so many bytes were taken. -/
def Takes (n : ℕ) (s s' : Bytes) : Prop := ∃ used, s = used ++ s' ∧ used.length ≤ n

theorem Takes.trans {n m : ℕ} {s s' s'' : Bytes} (h : Takes n s s') (h' : Takes m s' s'') :
    Takes (n + m) s s'' := by
  obtain ⟨used, rfl, hlen⟩ := h
  obtain ⟨used', rfl, hlen'⟩ := h'
  exact ⟨used ++ used', (List.append_assoc _ _ _).symm, by rw [List.length_append]; omega⟩

theorem Takes.mono {n m : ℕ} {s s' : Bytes} (h : Takes n s s') (hnm : n ≤ m) : Takes m s s' := by
  obtain ⟨used, hused, hlen⟩ := h
  exact ⟨used, hused, hlen.trans hnm⟩

theorem Takes.refl (n : ℕ) (s : Bytes) : Takes n s s := ⟨[], rfl, Nat.zero_le n⟩

/-- The lines of the headers in a stream, up to an empty one. -/
def headerLines (s : Bytes) : List Bytes := (s.splitOn newline).takeWhile fun line => headerOf line ≠ []

/-- The lines of the headers behind the first line of a stream. -/
def headersOf (s : Bytes) : List Bytes := headerLines (s.dropWhile (· ≠ newline)).tail

/-- The name a header's line is kept under. -/
def keptName (line : Bytes) : Option Bytes :=
  (splitOnce 58 (headerOf line)).map fun p => headerName p.1

/-- Headers with names of their own, with one carriage return at most at the end of a line. -/
structure Sober (headers : Params) (ls : List Bytes) : Prop where
  names : (ls.filterMap keptName).Nodup
  fresh : ∀ line ∈ ls, ∀ name ∈ keptName line, name ∉ headers
  ends : ∀ line ∈ ls, line.length ≤ (headerOf line).length + 1

theorem Sober.nil (headers : Params) : Sober headers [] :=
  ⟨List.nodup_nil, fun _ h => absurd h List.not_mem_nil, fun _ h => absurd h List.not_mem_nil⟩

/-- Behind a header the rest are sober still. -/
theorem Sober.tail {headers : Params} {line name value : Bytes} {ls : List Bytes}
    (hname : keptName line = some name) (h : Sober headers (line :: ls)) :
    Sober (headers.insert name value) ls := by
  have hnames := h.names
  rw [List.filterMap_cons_some hname, List.nodup_cons] at hnames
  refine ⟨hnames.2, fun other hother n hn hmem => ?_, fun other hother =>
    h.ends other (List.mem_cons_of_mem line hother)⟩
  rcases Std.ExtTreeMap.mem_insert.1 hmem with heq | hold
  · rw [Std.LawfulEqCmp.eq_of_compare heq] at hnames
    exact hnames.1 (List.mem_filterMap.2 ⟨other, hother, hn⟩)
  · exact h.fresh other (List.mem_cons_of_mem line hother) n hn hold

theorem headerLines_nil : headerLines [] = [] := by decide

theorem headerLines_cons {line : Bytes} (hline : newline ∉ line) (h : headerOf line ≠ []) (s : Bytes) :
    headerLines (line ++ [newline] ++ s) = line :: headerLines s := by
  rw [headerLines, List.append_assoc, List.singleton_append, List.splitOn_append_cons_self,
    List.splitOn_eq_singleton hline, List.singleton_append, List.takeWhile_cons_of_pos (by simpa using h)]
  rfl

theorem headerLines_last {line : Bytes} (hline : newline ∉ line) (h : headerOf line ≠ []) :
    headerLines line = [line] := by
  rw [headerLines, List.splitOn_eq_singleton hline, List.takeWhile_cons_of_pos (by simpa using h)]
  rfl

section

variable {broken : Bool}

/-- **The rule for the headers**, for a relation between the stream before them and behind them: what a
line that ends the loop keeps, and what a header keeps whose line is followed by the others. -/
theorem readHeaders_rule {P : Params → ℕ → Bytes → Bytes → Prop}
    (hend : ∀ headers headerBytes raw s', raw.length ≤ maxRequestLine + 1 →
      P headers headerBytes (raw ++ s') s')
    (hnext : ∀ headers headerBytes raw name value s' s'', raw.length ≤ maxRequestLine →
      (∃ line, raw = line ++ [newline] ∧ newline ∉ line) ∨ (s' = [] ∧ newline ∉ raw) →
      headerOf raw ≠ [] → headers.size < maxHeaders →
      headerBytes + (headerOf raw).length ≤ maxHeaderBytes →
      splitOnce 58 (headerOf raw) = some (name, value) →
      P (headers.insert (headerName name) (trimBytes value)) (headerBytes + (headerOf raw).length) s' s'' →
      P headers headerBytes (raw ++ s') s'')
    (turns : ℕ) (headers : Params) (headerBytes : ℕ) (s : Bytes) :
    P headers headerBytes s (readHeaders broken turns headers headerBytes s).2 := by
  induction turns generalizing headers headerBytes s with
  | zero => exact hend headers headerBytes [] s (Nat.zero_le _)
  | succ turns ih =>
    apply Act.wp_state
    rw [readHeaders, Act.wp_bind]
    refine Act.wp_mono (readLine_spec s) (fun raw s' hraw => ?_) (fun _ s' herror => ?_)
    · obtain ⟨rfl, hlen, hcut⟩ := hraw
      have hlast := hend headers headerBytes raw s' (by omega)
      split
      · exact hlast
      · dsimp only
        split
        · exact hlast
        · next hheader =>
          split
          · exact hlast
          · next hfits =>
            rw [Bool.or_eq_true, decide_eq_true_eq, decide_eq_true_eq, not_or] at hfits
            split
            · exact hlast
            · next name value hsplit =>
              apply Act.wp_of_state
              exact hnext headers headerBytes raw name value s' _ hlen hcut hheader
                (not_le.1 hfits.1) (not_lt.1 hfits.2) hsplit (ih _ _ s')
    · obtain ⟨raw, rfl, hlen⟩ := herror
      exact hend headers headerBytes raw s' hlen

/-- Every header counts, so the headers end. -/
theorem readHeaders_takes (turns : ℕ) (headers : Params) (headerBytes : ℕ) (s : Bytes)
    (hbytes : headerBytes ≤ maxHeaderBytes) :
    Takes ((maxHeaderBytes - headerBytes) * maxRequestLine + (maxRequestLine + 1)) s
      (readHeaders broken turns headers headerBytes s).2 := by
  refine readHeaders_rule (P := fun _ headerBytes s s' => headerBytes ≤ maxHeaderBytes →
    Takes ((maxHeaderBytes - headerBytes) * maxRequestLine + (maxRequestLine + 1)) s s') ?_ ?_
    turns headers headerBytes s hbytes
  · intro _ _ raw s' hlen _
    exact Takes.mono ⟨raw, rfl, hlen⟩ (by omega)
  · intro _ headerBytes raw _ _ s' s'' hlen _ hheader _ hfits _ ih _
    have hcount : 1 ≤ (headerOf raw).length := List.length_pos_iff.2 hheader
    have hhere : Takes maxRequestLine (raw ++ s') s' := ⟨raw, rfl, hlen⟩
    have hroom : maxHeaderBytes - (headerBytes + (headerOf raw).length) + 1 ≤
        maxHeaderBytes - headerBytes := by omega
    have hmul := Nat.mul_le_mul_right maxRequestLine hroom
    rw [Nat.add_mul, Nat.one_mul] at hmul
    exact (hhere.trans (ih hfits)).mono (by omega)

/-- Headers with names of their own count for what is read of them, but for the line ends. -/
theorem readHeaders_takes_sober (turns : ℕ) (headers : Params) (headerBytes : ℕ) (s : Bytes)
    (hsober : Sober headers (headerLines s)) (hsize : headers.size ≤ maxHeaders)
    (hbytes : headerBytes ≤ maxHeaderBytes) :
    Takes ((maxHeaderBytes - headerBytes) + 2 * (maxHeaders - headers.size) + (maxRequestLine + 1)) s
      (readHeaders broken turns headers headerBytes s).2 := by
  refine readHeaders_rule (P := fun headers headerBytes s s' => Sober headers (headerLines s) →
    headers.size ≤ maxHeaders → headerBytes ≤ maxHeaderBytes →
    Takes ((maxHeaderBytes - headerBytes) + 2 * (maxHeaders - headers.size) + (maxRequestLine + 1))
      s s') ?_ ?_ turns headers headerBytes s hsober hsize hbytes
  · intro _ _ raw s' hlen _ _ _
    exact Takes.mono ⟨raw, rfl, hlen⟩ (by omega)
  · intro headers headerBytes raw name value s' s'' hlen hcut hheader hroom hfits hsplit ih hsober _ _
    rcases hcut with ⟨line, rfl, hline⟩ | ⟨rfl, hraw⟩
    · rw [headerOf_line] at hheader hfits hsplit ih
      have hname : keptName line = some (headerName name) := by rw [keptName, hsplit]; rfl
      rw [headerLines_cons hline hheader] at hsober
      have hnew : headerName name ∉ headers := hsober.fresh line List.mem_cons_self _ hname
      have hends : line.length ≤ (headerOf line).length + 1 := hsober.ends line List.mem_cons_self
      have hsize : (headers.insert (headerName name) (trimBytes value)).size = headers.size + 1 := by
        rw [Std.ExtTreeMap.size_insert, if_neg (mt Std.ExtTreeMap.mem_iff_contains.2 hnew)]
      have hrest := ih (hsober.tail hname) (by omega) hfits
      rw [hsize] at hrest
      have hhere : Takes ((headerOf line).length + 2) (line ++ [newline] ++ s') s' :=
        ⟨_, rfl, by rw [List.length_append, List.length_singleton]; omega⟩
      exact (hhere.trans hrest).mono (by omega)
    · -- the connection ended in this line, so no other is read
      have hsize := Std.ExtTreeMap.size_insert_le (t := headers) (k := headerName name)
        (v := trimBytes value)
      obtain ⟨used, hused, -⟩ := ih (by rw [headerLines_nil]; exact Sober.nil _) (by omega) hfits
      rw [(List.append_eq_nil_iff.1 hused.symm).2]
      exact ⟨raw, rfl, by omega⟩

/-- With more turns than there are bytes the loop over the headers ends by itself. -/
theorem readHeaders_turns {n m : ℕ} (headers : Params) (headerBytes : ℕ) {s : Bytes}
    (hn : s.length < n) (hm : s.length < m) :
    readHeaders broken n headers headerBytes s = readHeaders broken m headers headerBytes s := by
  induction n generalizing m headers headerBytes s with
  | zero => exact absurd hn (Nat.not_lt_zero _)
  | succ n ih =>
    cases m with
    | zero => exact absurd hm (Nat.not_lt_zero _)
    | succ m =>
      rw [readHeaders, readHeaders]
      rcases hread : readLine broken maxRequestLine s with ⟨e | raw, s'⟩
      · rw [Act.bind_of_error hread, Act.bind_of_error hread]
      · rw [Act.bind_of_ok hread, Act.bind_of_ok hread]
        obtain ⟨rfl, -, -⟩ := Act.wp_ok (readLine_spec s) hread
        by_cases hraw : raw = []
        · rw [if_pos hraw, if_pos hraw]
        · have hbyte := List.length_pos_iff.2 hraw
          rw [List.length_append] at hn hm
          rw [if_neg hraw, if_neg hraw]
          dsimp only
          by_cases hempty : headerOf raw = []
          · rw [if_pos hempty, if_pos hempty]
          · rw [if_neg hempty, if_neg hempty]
            by_cases hfull : (maxHeaders ≤ headers.size ||
                maxHeaderBytes < headerBytes + (headerOf raw).length) = true
            · rw [if_pos hfull, if_pos hfull]
            · rw [if_neg hfull, if_neg hfull]
              cases splitOnce 58 (headerOf raw) with
              | none => rfl
              | some p => exact ih _ _ (by omega) (by omega)

/-- Up to the empty line a line is taken, and what the headers take. -/
theorem readHead_takes {n : ℕ} (s : Bytes) (hn : maxRequestLine + 1 ≤ n)
    (hheaders : ∀ raw s', s = raw ++ s' →
      (∃ line, raw = line ++ [newline] ∧ newline ∉ line) ∨ (s' = [] ∧ newline ∉ raw) →
      Takes n s' (readHeaders broken (s'.length + 1) ∅ 0 s').2) :
    Takes (maxRequestLine + n) s (readHead broken s).2 := by
  apply Act.wp_state
  rw [readHead, Act.wp_bind]
  refine Act.wp_mono (readLine_spec s) (fun raw s' hraw => ?_) (fun _ s' herror => ?_)
  · obtain ⟨rfl, hlen, hcut⟩ := hraw
    have hhere : Takes maxRequestLine (raw ++ s') s' := ⟨raw, rfl, hlen⟩
    have hstop := hhere.mono (Nat.le_add_right maxRequestLine n)
    split
    · exact hstop
    · dsimp only
      split
      · exact hstop
      · rw [Act.wp_bind, Act.wp_get, Act.wp_bind]
        have hrest := Act.wp_of_state (hheaders raw s' rfl hcut)
        exact Act.wp_mono hrest (fun _ _ h => hhere.trans h) (fun _ _ h => hhere.trans h)
  · obtain ⟨raw, rfl, hlen⟩ := herror
    exact Takes.mono ⟨raw, rfl, hlen⟩ (by omega)

theorem readExact_takes (n : ℕ) (s : Bytes) : Takes n s (readExact n s).2 := by
  rw [readExact]
  split
  · exact ⟨s.take n, (List.take_append_drop n s).symm, List.length_take_le n s⟩
  · next hshort => exact ⟨s, (List.append_nil s).symm, by omega⟩

/-- A body is no longer than it may be. -/
theorem readBody_takes (head : Head) (s : Bytes) : Takes maxBody s (readBody head s).2 := by
  apply Act.wp_state
  rw [readBody]
  split
  · exact Takes.refl maxBody s
  · split
    · exact Takes.refl maxBody s
    · next hlength =>
      rw [Act.wp_bind]
      split
      · have hbody := (readExact_takes head.length s).mono (not_lt.1 hlength)
        exact Act.wp_mono (Act.wp_of_state hbody) (fun _ _ h => h) (fun _ _ h => h)
      · exact Takes.refl maxBody s

/-- **What a call takes**: a line, the headers and a body. However often a name comes again and however
many carriage returns a line ends in, each header counts a byte at least; where neither happens, the
headers take what they count and their line ends. -/
theorem readRequest_takes (s : Bytes) :
    Takes (maxRequestLine + (maxHeaderBytes * maxRequestLine + (maxRequestLine + 1)) + maxBody) s
      (readRequest broken s).2 ∧
    (Sober ∅ (headersOf s) →
      Takes (maxRequestLine + (maxHeaderBytes + 2 * maxHeaders + (maxRequestLine + 1)) + maxBody) s
        (readRequest broken s).2) := by
  have hall : ∀ n, Takes (maxRequestLine + n) s (readHead broken s).2 →
      Takes (maxRequestLine + n + maxBody) s (readRequest broken s).2 := by
    intro n hhead
    apply Act.wp_state
    rw [readRequest, Act.wp_bind]
    refine Act.wp_mono (Act.wp_of_state hhead) (fun head s' h => ?_)
      (fun _ _ h => h.mono (Nat.le_add_right _ _))
    exact Act.wp_of_state (h.trans (readBody_takes head s'))
  constructor
  · refine hall _ (readHead_takes s (by omega) fun raw s' _ _ => ?_)
    exact readHeaders_takes (s'.length + 1) ∅ 0 s' (Nat.zero_le _)
  · intro hsober
    refine hall _ (readHead_takes s (by omega) fun raw s' hs hcut => ?_)
    refine readHeaders_takes_sober (s'.length + 1) ∅ 0 s' ?_ (Nat.zero_le _) (Nat.zero_le _)
    have hbehind : (s.dropWhile (· ≠ newline)).tail = s' := by
      rw [hs]
      rcases hcut with ⟨line, rfl, hline⟩ | ⟨rfl, hraw⟩
      · have hplain : ∀ b ∈ line, decide (b ≠ newline) = true := fun b hb =>
          decide_eq_true fun heq => hline (heq ▸ hb)
        rw [List.append_assoc, List.dropWhile_append_of_pos hplain]
        rfl
      · have hplain : ∀ b ∈ raw, decide (b ≠ newline) = true := fun b hb =>
          decide_eq_true fun heq => hraw (heq ▸ hb)
        rw [List.append_nil, (List.dropWhile_eq_nil_iff).2 hplain]
        rfl
    rw [headersOf, hbehind] at hsober
    exact hsober

end

/-! ## Requests as they are sent -/

/-- A number as a length is written. -/
def PlainDecimal (v : Bytes) : Prop := v ≠ [] ∧ v.all isDigit = true

instance : DecidablePred PlainDecimal := fun _ => inferInstanceAs (Decidable (_ ∧ _))

/-- A header of a request. -/
structure Header where
  name : Text
  value : Text
  name_trim : trimBytes name.val = name.val
  value_trim : trimBytes value.val = value.val
  colon_notMem : 58 ∉ name.val
  name_line : newline ∉ name.val
  value_line : newline ∉ value.val

/-- The name it is looked up by. -/
def Header.key (h : Header) : Bytes := h.name.val.map asciiLower

def Header.line (h : Header) : Bytes := h.name.val ++ 58 :: 32 :: h.value.val

/-- A request as a client writes it: a method and a target without blanks, headers with names of their
own, and a body whose length they give, all of it within the limits. -/
structure Wire where
  method : Text
  target : Text
  -- whether the version is the current one, or the one before
  current : Bool
  headers : List Header
  body : Bytes
  method_ne : method.val ≠ []
  method_blank : 32 ∉ method.val
  method_line : newline ∉ method.val
  target_ne : target.val ≠ []
  target_blank : 32 ∉ target.val
  target_line : newline ∉ target.val
  distinct : (headers.map Header.key).Nodup
  counted : ∀ h ∈ headers, h.key = text "content-length" →
    PlainDecimal h.value.val ∧ parseDecimal h.value.val = body.length
  uncounted : (∀ h ∈ headers, h.key ≠ text "content-length") → body = []
  line_fits : method.val.length + target.val.length + 12 ≤ maxRequestLine
  header_fits : ∀ h ∈ headers, h.line.length + 2 ≤ maxRequestLine
  headers_fit : headers.length ≤ maxHeaders
  bytes_fit : (headers.map fun h => h.line.length).sum ≤ maxHeaderBytes
  body_fits : body.length ≤ maxBody

namespace Wire

variable (w : Wire)

def version : Bytes := if w.current then text "HTTP/1.1" else text "HTTP/1.0"

/-- The first line, up to its line end. -/
def line : Bytes := w.method.val ++ 32 :: (w.target.val ++ 32 :: w.version)

/-- The bytes that are sent. -/
def render : Bytes :=
  w.line ++ 13 :: newline ::
    (w.headers.flatMap (fun h => h.line ++ [13, newline]) ++ 13 :: newline :: w.body)

/-- Whether a header says that the body comes in chunks. -/
def chunked : Bool :=
  w.headers.any fun h =>
    h.key = text "transfer-encoding" && (text "chunked" <:+: h.value.val.map asciiLower : Bool)

end Wire

/-- A request that carries what was sent. -/
structure Carries (w : Wire) (r : Request) : Prop where
  method : r.method = w.method.val
  target : splitTarget w.target.val = some (r.path, r.query)
  headers : ∀ name value, r.headers[name]? = some value ↔
    ∃ h ∈ w.headers, h.key = name ∧ h.value.val = value
  body : r.body = w.body

/-- The calls on a stream give these requests one after another, and then find it closed. -/
inductive Answered : List Wire → Bytes → Prop
  | closed {s s' : Bytes} : readRequest false s = (.error .closed, s') → Answered [] s
  | next {w : Wire} {ws : List Wire} {r : Request} {s s' : Bytes} :
    readRequest false s = (.ok (some r), s') → Carries w r → Answered ws s' → Answered (w :: ws) s

/-! ## Reading them back -/

theorem trimEnd_ne {bs : Bytes} (h : trimEnd bs = bs) {b : UInt8} (hb : [b] ∈ spaces) :
    bs.getLast? ≠ some b := by
  intro hlast
  have hstop := (trimEnd_eq_iff.1 h).2 [b] (List.mem_map.2 ⟨[b], hb, rfl⟩)
  rw [← List.head?_reverse] at hlast
  cases hrev : bs.reverse with
  | nil => rw [hrev] at hlast; exact nomatch hlast
  | cons x xs =>
    rw [hrev, List.head?_cons, Option.some.injEq] at hlast
    rw [hrev, hlast] at hstop
    exact hstop (List.cons_prefix_cons.2 ⟨rfl, List.nil_prefix⟩)

/-- The line end is all that is trimmed of a line that does not end so itself. -/
theorem trimNewlines_line {line : Bytes} (h13 : line.getLast? ≠ some 13)
    (h10 : line.getLast? ≠ some newline) : trimNewlines (line ++ [13, newline]) = line := by
  rw [trimNewlines, List.reverse_append]
  show ((line.reverse.dropWhile _).reverse = line)
  rw [← List.head?_reverse] at h13 h10
  cases hrev : line.reverse with
  | nil => rw [List.reverse_eq_nil_iff.1 hrev]; rfl
  | cons b rest =>
    rw [hrev, List.head?_cons, ne_eq, Option.some.injEq] at h13 h10
    rw [List.dropWhile_cons_of_neg (by simp [h13, h10]), ← hrev, List.reverse_reverse]

section

variable (h : Header)

theorem Header.valid : Utf8.valid h.line = true := by
  rw [Header.line, Utf8.valid_append h.name.property]
  have hcolon : Utf8.valid (58 :: 32 :: h.value.val) = Utf8.valid h.value.val :=
    Utf8.valid_append (a := [58, 32]) (by decide) h.value.val
  rw [hcolon]
  exact h.value.property

theorem Header.notMem_newline : newline ∉ h.line := by
  intro hmem
  rw [Header.line, List.mem_append, List.mem_cons, List.mem_cons] at hmem
  rcases hmem with hname | hcolon | hblank | hvalue
  · exact h.name_line hname
  · exact absurd hcolon (by decide)
  · exact absurd hblank (by decide)
  · exact h.value_line hvalue

/-- A header's line is looked at without its line end. -/
theorem Header.headerOf_raw : headerOf (h.line ++ [13, newline]) = h.line := by
  have hlast : ∀ b : UInt8, [b] ∈ spaces → b ≠ 32 → h.line.getLast? ≠ some b := by
    intro b hb hblank
    rw [Header.line, List.getLast?_append, List.getLast?_cons_cons]
    cases hvalue : h.value.val with
    | nil => simpa using Ne.symm hblank
    | cons x xs =>
      have hne := trimEnd_ne (trimStart_of_trim h.value_trim).2 hb
      rw [hvalue] at hne
      rw [List.getLast?_cons_cons]
      simpa using hne
  have hraw : Utf8.valid (h.line ++ [13, newline]) = true := by
    rw [Utf8.valid_append h.valid]
    decide
  rw [headerOf, Utf8.lossy_eq_self_iff.2 hraw]
  exact trimNewlines_line (hlast 13 (by decide) (by decide)) (hlast newline (by decide) (by decide))

/-- The name and the value are what a header is made of. -/
theorem Header.split : splitOnce 58 h.line = some (h.name.val, 32 :: h.value.val) ∧
    headerName h.name.val = h.key ∧ trimBytes (32 :: h.value.val) = h.value.val := by
  refine ⟨splitOnce_append h.colon_notMem _, by rw [headerName, h.name_trim, Header.key], ?_⟩
  have hblank := @trimStart_append [[32]] (by decide) h.value.val
  have hstart : trimStart (32 :: h.value.val) = trimStart h.value.val := hblank
  rw [trimBytes, hstart]
  exact h.value_trim

end

section

variable {broken : Bool}

/-- A header that fits is read and kept. -/
theorem readHeaders_line (turns : ℕ) (headers : Params) (headerBytes : ℕ) (h : Header) (s : Bytes)
    (hline : h.line.length + 2 ≤ maxRequestLine) (hcount : headers.size < maxHeaders)
    (hbytes : headerBytes + h.line.length ≤ maxHeaderBytes) :
    readHeaders broken (turns + 1) headers headerBytes (h.line ++ [13, newline] ++ s) =
      readHeaders broken turns (headers.insert h.key h.value.val) (headerBytes + h.line.length) s := by
  have hread : readLine broken maxRequestLine (h.line ++ [13, newline] ++ s) =
      (.ok (h.line ++ [13, newline]), s) := by
    have hno : newline ∉ h.line ++ [13] := by
      rw [List.mem_append, not_or]
      exact ⟨h.notMem_newline, by decide⟩
    have hfits : (h.line ++ [13]).length < maxRequestLine := by
      rw [List.length_append, List.length_singleton]
      omega
    have hall := @readLine_line broken maxRequestLine _ hno hfits s
    rw [List.append_assoc, List.append_assoc] at hall
    rw [List.append_assoc]
    exact hall
  obtain ⟨hsplit, hkey, hvalue⟩ := h.split
  have hne : h.line ≠ [] := by rw [Header.line]; simp
  rw [readHeaders, Act.bind_of_ok hread, if_neg (by simp)]
  dsimp only
  rw [h.headerOf_raw, if_neg hne, if_neg (by simp; omega), hsplit]
  dsimp only
  rw [hkey, hvalue]

/-- **The headers are read back**, up to the empty line and no further. -/
theorem readHeaders_lines (hs : List Header) {turns : ℕ} (headers : Params) (headerBytes : ℕ)
    (rest : Bytes) (hturns : hs.length < turns)
    (hlines : ∀ h ∈ hs, h.line.length + 2 ≤ maxRequestLine)
    (hcount : headers.size + hs.length ≤ maxHeaders)
    (hbytes : headerBytes + (hs.map fun h => h.line.length).sum ≤ maxHeaderBytes) :
    readHeaders broken turns headers headerBytes
        (hs.flatMap (fun h => h.line ++ [13, newline]) ++ 13 :: newline :: rest) =
      (.ok (headers.insertMany (hs.map fun h => (h.key, h.value.val))), rest) := by
  induction hs generalizing turns headers headerBytes with
  | nil =>
    obtain ⟨turns, rfl⟩ := Nat.exists_eq_succ_of_ne_zero (Nat.ne_of_gt hturns)
    have hread : readLine broken maxRequestLine (13 :: newline :: rest) = (.ok [13, newline], rest) :=
      @readLine_line _ _ [13] (by decide) (by decide) rest
    rw [List.flatMap_nil, List.nil_append, readHeaders, Act.bind_of_ok hread, if_neg (by simp)]
    dsimp only
    rw [if_pos (by decide), List.map_nil, Std.ExtTreeMap.insertMany_nil]
    rfl
  | cons h hs ih =>
    obtain ⟨turns, rfl⟩ := Nat.exists_eq_succ_of_ne_zero (Nat.ne_of_gt (Nat.zero_lt_of_lt hturns))
    obtain ⟨hline, hlines⟩ := List.forall_mem_cons.1 hlines
    rw [List.length_cons] at hturns hcount
    rw [List.map_cons, List.sum_cons] at hbytes
    have hsize := Std.ExtTreeMap.size_insert_le (t := headers) (k := h.key) (v := h.value.val)
    rw [List.flatMap_cons, List.append_assoc,
      readHeaders_line turns headers headerBytes h _ hline (by omega) (by omega),
      ih _ _ (by omega) hlines (by omega) (by omega), List.map_cons, Std.ExtTreeMap.insertMany_cons]

end

/-- What is written as a length should be is read as one, where it fits. -/
theorem parseUsize_plain {v : Bytes} (h : PlainDecimal v) :
    parseUsize v = if parseDecimal v < 2 ^ 64 then some (parseDecimal v) else none := by
  obtain ⟨hne, hdigits⟩ := h
  have hplus : v.head? ≠ some 43 := by
    intro hhead
    have hmem := List.all_eq_true.1 hdigits 43 (List.mem_of_mem_head? hhead)
    exact absurd hmem (by decide)
  have hall : (if 1 < v.length ∧ v.head? = some 43 then v.tail else v) = v :=
    if_neg fun hand => hplus hand.2
  rw [parseUsize, hall]
  by_cases hfits : parseDecimal v < 2 ^ 64
  · rw [if_pos ⟨hne, hdigits, hfits⟩, if_pos hfits]
  · rw [if_neg fun hand => hfits hand.2.2, if_neg hfits]

/-- Of what is not, a number behind a plus sign is read all the same, and nothing else. -/
theorem parseUsize_not_plain {v : Bytes} (h : ¬PlainDecimal v) (n : ℕ) :
    parseUsize v = some n ↔
      ∃ digits, v = 43 :: digits ∧ PlainDecimal digits ∧ parseDecimal digits < 2 ^ 64 ∧
        parseDecimal digits = n := by
  rw [parseUsize]
  by_cases hsign : 1 < v.length ∧ v.head? = some 43
  · rw [if_pos hsign]
    obtain ⟨digits, rfl⟩ := List.head?_eq_some_iff.1 hsign.2
    rw [List.tail_cons]
    constructor
    · intro hsome
      split at hsome
      · next hdigits =>
        exact ⟨digits, rfl, ⟨hdigits.1, hdigits.2.1⟩, hdigits.2.2, Option.some.inj hsome⟩
      · exact nomatch hsome
    · intro hdigits
      obtain ⟨_, heq, hplain, hfits, rfl⟩ := hdigits
      obtain rfl := (List.cons_inj_right 43).1 heq
      rw [if_pos ⟨hplain.1, hplain.2, hfits⟩]
  · rw [if_neg hsign]
    constructor
    · intro hsome
      split at hsome
      · next hdigits => exact absurd ⟨hdigits.1, hdigits.2.1⟩ h
      · exact nomatch hsome
    · intro hdigits
      obtain ⟨digits, rfl, hplain, -⟩ := hdigits
      have hlen := List.length_pos_iff.2 hplain.1
      exact absurd ⟨by rw [List.length_cons]; omega, rfl⟩ hsign

namespace Wire

variable (w : Wire)

/-- The headers as they are kept. -/
def kept : Params := (∅ : Params).insertMany (w.headers.map fun h => (h.key, h.value.val))

/-- What stands before the body, as it is read. -/
def head : Head := ⟨w.method.val, w.target.val, w.version, w.kept⟩

theorem getElem?_kept (name value : Bytes) :
    w.kept[name]? = some value ↔ ∃ h ∈ w.headers, h.key = name ∧ h.value.val = value := by
  have hpairs : (w.headers.map fun h => (h.key, h.value.val)).Pairwise
      fun a b => ¬compare a.1 b.1 = .eq := by
    have hdistinct := w.distinct
    rw [List.Nodup, List.pairwise_map] at hdistinct
    rw [List.pairwise_map]
    exact hdistinct.imp fun hne heq => hne (Std.LawfulEqCmp.eq_of_compare heq)
  have hmem : ∀ h ∈ w.headers, w.kept[h.key]? = some h.value.val := fun h hh =>
    Std.ExtTreeMap.getElem?_insertMany_list_of_mem Std.ReflCmp.compare_self hpairs
      (List.mem_map.2 ⟨h, hh, rfl⟩)
  constructor
  · intro hkept
    by_cases hname : ∃ h ∈ w.headers, h.key = name
    · obtain ⟨h, hh, rfl⟩ := hname
      exact ⟨h, hh, rfl, Option.some.inj ((hmem h hh).symm.trans hkept)⟩
    · rw [kept, Std.ExtTreeMap.getElem?_insertMany_list_of_contains_eq_false] at hkept
      · exact absurd hkept (by simp)
      · rw [← Bool.not_eq_true, List.contains_iff_mem, List.map_map]
        intro hin
        obtain ⟨h, hh, heq⟩ := List.mem_map.1 hin
        exact hname ⟨h, hh, heq⟩
  · intro hname
    obtain ⟨h, hh, rfl, rfl⟩ := hname
    exact hmem h hh

theorem version_eq : ∃ c, Solid c ∧ w.version = text "HTTP/1." ++ [c] := by
  cases hcurrent : w.current with
  | true => exact ⟨49, by decide, by rw [version, hcurrent]; decide⟩
  | false => exact ⟨48, by decide, by rw [version, hcurrent]; decide⟩

theorem version_spec : w.version.length = 8 ∧ 32 ∉ w.version ∧ newline ∉ w.version ∧
    Utf8.valid w.version = true := by
  cases hcurrent : w.current with
  | true => rw [version, hcurrent]; decide
  | false => rw [version, hcurrent]; decide

theorem notMem_newline_line : newline ∉ w.line ++ [13] := by
  intro hmem
  rw [line, List.mem_append, List.mem_append, List.mem_cons, List.mem_append, List.mem_cons] at hmem
  rcases hmem with (hmethod | hblank | htarget | hblank | hversion) | hreturn
  · exact w.method_line hmethod
  · exact absurd hblank (by decide)
  · exact w.target_line htarget
  · exact absurd hblank (by decide)
  · exact w.version_spec.2.2.1 hversion
  · exact absurd hreturn (by decide)

/-- The first line gives its three parts. -/
theorem splitOn_line :
    (trimEnd (Utf8.lossy (w.line ++ [13] ++ [newline]))).splitOn 32 =
      [w.method.val, w.target.val, w.version] := by
  obtain ⟨-, hblank, -, hversion⟩ := w.version_spec
  have hcons : ∀ bs, Utf8.valid (32 :: bs) = Utf8.valid bs := fun bs =>
    Utf8.valid_append (a := [32]) (by decide) bs
  have hvalid : Utf8.valid (w.line ++ [13] ++ [newline]) = true := by
    rw [line, List.append_assoc, List.append_assoc, Utf8.valid_append w.method.property,
      List.cons_append, hcons, List.append_assoc, Utf8.valid_append w.target.property,
      List.cons_append, hcons, Utf8.valid_append hversion]
    decide
  have htrim : trimEnd (w.line ++ [13] ++ [newline]) = w.line := by
    obtain ⟨c, hc, hversion⟩ := w.version_eq
    have hcut := trimEnd_append_cons hc
      (w.method.val ++ 32 :: (w.target.val ++ 32 :: text "HTTP/1.")) [13, newline]
    rw [show trimEnd [13, newline] = [] by decide] at hcut
    rw [line, hversion]
    simpa using hcut
  rw [Utf8.lossy_eq_self_iff.2 hvalid, htrim, line, List.splitOn_append_cons_self,
    List.splitOn_eq_singleton w.method_blank, List.splitOn_append_cons_self,
    List.splitOn_eq_singleton w.target_blank, List.splitOn_eq_singleton hblank]
  rfl

/-- **What stands before the body is read back**, and the body is left. -/
theorem readHead_render (broken : Bool) (rest : Bytes) :
    readHead broken (w.render ++ rest) = (.ok w.head, w.body ++ rest) := by
  have hstream : w.render ++ rest = (w.line ++ [13]) ++ newline ::
      (w.headers.flatMap (fun h => h.line ++ [13, newline]) ++ 13 :: newline :: (w.body ++ rest)) := by
    simp [render]
  have hfits : (w.line ++ [13]).length < maxRequestLine := by
    have hline := w.line_fits
    have hversion := w.version_spec.1
    simp only [line, List.length_append, List.length_cons, List.length_nil, hversion]
    omega
  have hparts := w.splitOn_line
  rw [hstream, readHead, Act.bind_of_ok (readLine_line w.notMem_newline_line hfits _),
    if_neg (by simp), hparts]
  dsimp only [List.getElem?_cons_zero, List.getElem?_cons_succ, Option.getD_some]
  rw [if_neg (by simp [w.method_ne, w.target_ne])]
  refine (Act.bind_of_ok (m := Act.get) rfl _).trans ?_
  have hturns : w.headers.length <
      (w.headers.flatMap (fun h => h.line ++ [13, newline]) ++
        13 :: newline :: (w.body ++ rest)).length + 1 := by
    have hlines := List.length_le_sum_of_one_le
      (w.headers.map fun h => (h.line ++ [13, newline]).length) fun n hn => by
        obtain ⟨h, -, rfl⟩ := List.mem_map.1 hn
        simp
    rw [List.length_map, ← List.length_flatMap] at hlines
    rw [List.length_append]
    omega
  have hcount : (∅ : Params).size + w.headers.length ≤ maxHeaders := by
    rw [Std.ExtTreeMap.size_empty, Nat.zero_add]
    exact w.headers_fit
  rw [Act.bind_of_ok (readHeaders_lines w.headers ∅ 0 (w.body ++ rest) hturns w.header_fits hcount
    ((Nat.zero_add _).trans_le w.bytes_fit))]
  rfl

theorem head_chunked : w.head.chunked = w.chunked := by
  rw [Bool.eq_iff_iff, Head.chunked, chunked, Option.any_eq_true, List.any_eq_true]
  constructor
  · intro hkept
    obtain ⟨value, hvalue, hchunked⟩ := hkept
    obtain ⟨h, hh, hkey, rfl⟩ := (w.getElem?_kept _ _).1 hvalue
    exact ⟨h, hh, by simpa [hkey] using hchunked⟩
  · intro hheader
    obtain ⟨h, hh, hchunked⟩ := hheader
    rw [Bool.and_eq_true, decide_eq_true_eq] at hchunked
    exact ⟨h.value.val, (w.getElem?_kept _ _).2 ⟨h, hh, hchunked.1, rfl⟩, hchunked.2⟩

/-- The length is read as it is written. -/
theorem head_length : w.head.length = w.body.length := by
  rw [Head.length]
  by_cases hcounted : ∃ h ∈ w.headers, h.key = text "content-length"
  · obtain ⟨h, hh, hkey⟩ := hcounted
    obtain ⟨hplain, hvalue⟩ := w.counted h hh hkey
    have hkept : w.head.headers[text "content-length"]? = some h.value.val :=
      (w.getElem?_kept _ _).2 ⟨h, hh, hkey, rfl⟩
    have hsmall : w.body.length < 2 ^ 64 := w.body_fits.trans_lt (by decide)
    rw [hkept, Option.bind_some, parseUsize_plain hplain, hvalue, if_pos hsmall, Option.getD_some]
  · have hnone : w.head.headers[text "content-length"]? = none := by
      rw [Option.eq_none_iff_forall_ne_some]
      intro value hvalue
      obtain ⟨h, hh, hkey, -⟩ := (w.getElem?_kept _ _).1 hvalue
      exact hcounted ⟨h, hh, hkey⟩
    have hbody := w.uncounted fun h hh hkey => hcounted ⟨h, hh, hkey⟩
    rw [hnone, hbody]
    rfl

/-- **A request is read back**, with nothing of what follows it. -/
theorem readRequest_render (broken : Bool) (rest : Bytes) :
    readRequest broken (w.render ++ rest) =
      if w.chunked then (.error .unsupported, w.body ++ rest)
      else (.ok ((splitTarget w.target.val).map fun t =>
        { method := w.method.val, path := t.1, query := t.2, headers := w.kept, body := w.body,
          keepAlive := w.head.keepAlive }), rest) := by
  rw [readRequest, Act.bind_of_ok (w.readHead_render broken rest), readBody, w.head_chunked,
    w.head_length, if_neg (not_lt.2 w.body_fits)]
  cases w.chunked with
  | true => rfl
  | false =>
    have hbody : (if 0 < w.body.length then readExact w.body.length else pure [] : Act _ _ Bytes)
        (w.body ++ rest) = (.ok w.body, rest) := by
      split
      · rw [readExact, if_pos (by simp), List.take_left, List.drop_left]
      · next hempty =>
        rw [List.length_eq_zero_iff.1 (Nat.eq_zero_of_not_pos hempty)]
        rfl
    rw [if_neg Bool.false_ne_true, if_neg Bool.false_ne_true, Act.bind_of_ok hbody]
    rfl

end Wire

/-! ## Requests on one connection -/

/-- A body is refused that comes in chunks, is too long, or does not come whole. -/
theorem readBody_refused (head : Head) (s : Bytes) :
    (∃ e, (readBody head s).1 = .error e) ↔
      head.chunked = true ∨ maxBody < head.length ∨ s.length < head.length := by
  rw [readBody]
  by_cases hchunked : head.chunked = true
  · rw [if_pos hchunked]
    exact iff_of_true ⟨.unsupported, rfl⟩ (Or.inl hchunked)
  · rw [if_neg hchunked, or_iff_right hchunked]
    by_cases hlong : maxBody < head.length
    · rw [if_pos hlong]
      exact iff_of_true ⟨.tooLarge, rfl⟩ (Or.inl hlong)
    · rw [if_neg hlong, or_iff_right hlong]
      by_cases hshort : s.length < head.length
      · have hread : (if 0 < head.length then readExact head.length else pure [] : Act _ _ Bytes) s =
            (.error .malformed, []) := by
          rw [if_pos (by omega), readExact, if_neg (by omega)]
        rw [Act.bind_of_error hread]
        exact iff_of_true ⟨.malformed, rfl⟩ hshort
      · have hread : ∃ body s', (if 0 < head.length then readExact head.length else pure [] :
            Act _ _ Bytes) s = (.ok body, s') := by
          split
          · exact ⟨s.take head.length, s.drop head.length, by rw [readExact, if_pos (by omega)]⟩
          · exact ⟨[], s, rfl⟩
        obtain ⟨body, s', hbody⟩ := hread
        rw [Act.bind_of_ok hbody]
        refine iff_of_false (fun herror => ?_) hshort
        obtain ⟨e, he⟩ := herror
        exact nomatch he

/-- What is sent is what the calls give, where every target can be taken apart and no body comes in
chunks. -/
theorem wires_answered_iff (ws : List Wire) :
    Answered ws (ws.flatMap Wire.render) ↔
      ∀ w ∈ ws, w.chunked = false ∧ (splitTarget w.target.val).isSome := by
  induction ws with
  | nil => exact iff_of_true (Answered.closed rfl) (List.forall_mem_nil _)
  | cons w ws ih =>
    rw [List.flatMap_cons, List.forall_mem_cons, ← ih]
    have hread := w.readRequest_render false (ws.flatMap Wire.render)
    constructor
    · intro hall
      cases hall with
      | next hfirst _ hrest =>
        rw [hread] at hfirst
        cases hchunked : w.chunked with
        | true =>
          rw [if_pos hchunked] at hfirst
          exact nomatch (Prod.mk.inj hfirst).1
        | false =>
          rw [if_neg (by simp [hchunked])] at hfirst
          obtain ⟨hsome, rfl⟩ := Prod.mk.inj hfirst
          refine ⟨⟨rfl, ?_⟩, hrest⟩
          obtain ⟨t, ht, -⟩ := Option.map_eq_some_iff.1 (Except.ok.inj hsome)
          rw [ht]
          rfl
    · intro hall
      obtain ⟨⟨hchunked, htarget⟩, hrest⟩ := hall
      obtain ⟨t, ht⟩ := Option.isSome_iff_exists.1 htarget
      rw [if_neg (by simp [hchunked]), ht, Option.map_some] at hread
      exact Answered.next hread ⟨rfl, ht, w.getElem?_kept, rfl⟩ hrest

/-- The stream of a request whose length is no number, with its body. -/
def bodyAsRequest : Bytes :=
  text "POST /a HTTP/1.1\r\nContent-Length: five\r\n\r\nGET /b HTTP/1.1\r\n\r\n"

/-- What a test can look at of an answer. -/
def shown (answer : Except ParseError (Option Request)) : Option (Bytes × Bytes × Bytes) :=
  answer.toOption.join.map fun r => (r.method, r.path, r.body)

theorem exists_wire : ∃ w : Wire,
    w.render = text "POST /a HTTP/1.1\r\nContent-Length: 2\r\n\r\nhi" ∧ w.chunked = false ∧
      w.target.val = text "/a" := by
  have hheader : ∃ h : Header, h.key = text "content-length" ∧
      h.line = text "Content-Length: 2" ∧ h.value.val = text "2" := by
    refine ⟨⟨⟨text "Content-Length", ?_⟩, ⟨text "2", ?_⟩, ?_, ?_, ?_, ?_, ?_⟩, ?_, ?_, ?_⟩ <;>
      decide
  obtain ⟨h, hkey, hline, hvalue⟩ := hheader
  have hall : ∀ g ∈ [h], g.line.length + 2 ≤ maxRequestLine := fun g hg => by
    rw [List.mem_singleton.1 hg, hline]
    decide
  have hcounted : ∀ g ∈ [h], g.key = text "content-length" →
      PlainDecimal g.value.val ∧ parseDecimal g.value.val = (text "hi").length := fun g hg _ => by
    rw [List.mem_singleton.1 hg, hvalue]
    decide
  refine ⟨⟨⟨text "POST", by decide⟩, ⟨text "/a", by decide⟩, true, [h], text "hi",
    by decide, by decide, by decide, by decide, by decide,
    by decide, List.nodup_singleton _, hcounted,
    fun hno => absurd hkey (hno h List.mem_cons_self), by decide, hall, by simp [maxHeaders],
    ?_, by decide⟩, ?_, ?_, rfl⟩
  · rw [List.map_singleton, List.sum_singleton, hline]
    decide
  · show (text "POST" ++ 32 :: (text "/a" ++ 32 :: text "HTTP/1.1")) ++ 13 :: newline ::
      ([h].flatMap (fun h => h.line ++ [13, newline]) ++ 13 :: newline :: text "hi") = _
    rw [List.flatMap_singleton, hline]
    decide
  · show ([h].any fun h => _) = false
    rw [List.any_cons, List.any_nil, hkey, hvalue]
    decide

end Aurade.Daemon
