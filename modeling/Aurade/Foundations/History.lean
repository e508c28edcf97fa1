import Aurade.Foundations.Act

/-!
# Programs whose calls are answered

A program that runs commands knows the world through their answers alone. `Surroundings` say how
each call is answered, given everything called before: to quantify over them is to quantify over
all that the world does, in the calls and between them. The state of a run records the calls, so
that what a run did can be said of its history.

* `Act.ask` makes a call.
* `AllCalls P es`: every call of the history `es` satisfies `P`, which may look at what was called
  before it.
* `Makes P J m`: every call `m` makes satisfies `P`, and `m` keeps `J` of its variables. It goes
  along sequences, branches and loops by the rules of `Act.Stays`, so that nothing more has to be
  found for a program whose calls are all harmless.
* `Learns P J K T m`: the same where the calls so far satisfy `K`, and what is known when `m` returns.
  It is for the programs whose later calls depend on what earlier ones were answered.
-/

namespace Aurade

/-- How every call is answered, given the calls before it and their answers. -/
abbrev Surroundings (κ ρ : Type) := List (κ × ρ) → κ → ρ

/-- The state of a run. -/
structure Recorded (κ ρ ν : Type) where
  /-- The calls made, with their answers, the newest last. -/
  history : List (κ × ρ) := []
  /-- The program's own variables. -/
  vars : ν

variable {κ ρ ν ε α β ι : Type}

/-- Every call of the history satisfies `P`, given the calls before it. -/
def AllCalls (P : List (κ × ρ) → κ → Prop) (es : List (κ × ρ)) : Prop :=
  ∀ before call after, es = before ++ call :: after → P before call.1

theorem allCalls_nil (P : List (κ × ρ) → κ → Prop) : AllCalls P [] := by
  intro before call after h
  simp at h

theorem allCalls_singleton {P : List (κ × ρ) → κ → Prop} {e : κ × ρ} :
    AllCalls P [e] ↔ P [] e.1 := by
  constructor
  · intro h
    exact h [] e [] rfl
  · intro h before call after hsplit
    obtain ⟨rfl, rfl, rfl⟩ : before = [] ∧ e = call ∧ after = [] := by
      cases before <;> simp_all
    exact h

theorem allCalls_append {P : List (κ × ρ) → κ → Prop} {es fs : List (κ × ρ)} :
    AllCalls P (es ++ fs) ↔ AllCalls P es ∧ AllCalls (fun before => P (es ++ before)) fs := by
  constructor
  · intro h
    constructor
    · intro before call after hes
      exact h before call (after ++ fs) (by simp [hes])
    · intro before call after hfs
      exact h (es ++ before) call after (by simp [hfs])
  · intro h before call after hsplit
    rcases List.append_eq_append_iff.1 hsplit with ⟨cs, hb, hf⟩ | ⟨cs, he, hc⟩
    · rw [hb]
      exact h.2 cs call after hf
    -- the call is the last of the first part, or further to its front
    · cases cs with
      | nil =>
        have hP := h.2 [] call after hc.symm
        rwa [he, List.append_nil, List.append_nil] at *
      | cons c cs =>
        obtain ⟨rfl, -⟩ := List.cons.inj hc
        exact h.1 before call cs he

theorem AllCalls.mono {P Q : List (κ × ρ) → κ → Prop} {es : List (κ × ρ)} (h : AllCalls P es)
    (hPQ : ∀ before c, P before c → Q before c) : AllCalls Q es :=
  fun before call after hes => hPQ before call.1 (h before call after hes)

namespace Recorded

/-- What the run did between `s` and `s'`, each call of it satisfying `P`. -/
def Adds (P : List (κ × ρ) → κ → Prop) (s s' : Recorded κ ρ ν) : Prop :=
  ∃ es, s'.history = s.history ++ es ∧ AllCalls (fun before => P (s.history ++ before)) es

theorem Adds.refl {P : List (κ × ρ) → κ → Prop} (s : Recorded κ ρ ν) : Adds P s s :=
  ⟨[], (List.append_nil _).symm, allCalls_nil _⟩

theorem Adds.trans {P : List (κ × ρ) → κ → Prop} {a b c : Recorded κ ρ ν} (h : Adds P a b)
    (h' : Adds P b c) : Adds P a c := by
  obtain ⟨es, hes, hP⟩ := h
  obtain ⟨fs, hfs, hP'⟩ := h'
  refine ⟨es ++ fs, by rw [hfs, hes, List.append_assoc], allCalls_append.2 ⟨hP, ?_⟩⟩
  simpa only [hes, List.append_assoc] using hP'

theorem Adds.of_eq {P : List (κ × ρ) → κ → Prop} {s s' : Recorded κ ρ ν}
    (h : s'.history = s.history) : Adds P s s' :=
  ⟨[], by rw [h, List.append_nil], allCalls_nil _⟩

theorem Adds.mono {P Q : List (κ × ρ) → κ → Prop} {s s' : Recorded κ ρ ν} (h : Adds P s s')
    (hPQ : ∀ before c, P before c → Q before c) : Adds Q s s' := by
  obtain ⟨es, hes, hP⟩ := h
  exact ⟨es, hes, hP.mono fun before => hPQ _⟩

/-- A history all of whose calls satisfy `P` goes on being one. -/
theorem Adds.all {P : List (κ × ρ) → κ → Prop} {s s' : Recorded κ ρ ν} (h : Adds P s s')
    (hs : AllCalls P s.history) : AllCalls P s'.history := by
  obtain ⟨es, hes, hP⟩ := h
  rw [hes]
  exact allCalls_append.2 ⟨hs, hP⟩

/-- What was called stays called. -/
theorem Adds.mem {P : List (κ × ρ) → κ → Prop} {s s' : Recorded κ ρ ν} (h : Adds P s s')
    {e : κ × ρ} (he : e ∈ s.history) : e ∈ s'.history := by
  obtain ⟨es, hes, -⟩ := h
  rw [hes]
  exact List.mem_append_left es he

end Recorded

namespace Act

/-- Make a call. -/
def ask (env : Surroundings κ ρ) (c : κ) : Act (Recorded κ ρ ν) ε ρ := fun s =>
  (.ok (env s.history c), { s with history := s.history ++ [(c, env s.history c)] })

/-- Assign to the program's variables. -/
def assign (f : ν → ν) : Act (Recorded κ ρ ν) ε Unit := modify fun s => { s with vars := f s.vars }

/-- The program's variables. -/
def vars : Act (Recorded κ ρ ν) ε ν := (·.vars) <$> get

variable {env : Surroundings κ ρ} {P Q : List (κ × ρ) → κ → Prop} {J : ν → Prop}

@[simp] theorem wp_ask (c : κ) (Q : ρ → Recorded κ ρ ν → Prop) (E : ε → Recorded κ ρ ν → Prop)
    (s : Recorded κ ρ ν) :
    wp (ask env c) Q E s ↔
      Q (env s.history c) { s with history := s.history ++ [(c, env s.history c)] } := Iff.rfl

/-- What a run may do between `s` and `s'`, where the variables satisfy `J`: calls that satisfy `P`,
and nothing that takes `J` from the variables. -/
def Within (P : List (κ × ρ) → κ → Prop) (J : ν → Prop) (s s' : Recorded κ ρ ν) : Prop :=
  J s.vars → Recorded.Adds P s s' ∧ J s'.vars

theorem Within.refl (s : Recorded κ ρ ν) : Within P J s s := fun hJ => ⟨Recorded.Adds.refl s, hJ⟩

theorem Within.trans {a b c : Recorded κ ρ ν} (h : Within P J a b) (h' : Within P J b c) :
    Within P J a c := fun hJ =>
  ⟨(h hJ).1.trans (h' (h hJ).2).1, (h' (h hJ).2).2⟩

/-- Every call `m` makes satisfies `P`, and `m` keeps `J` of its variables. -/
def Makes (P : List (κ × ρ) → κ → Prop) (J : ν → Prop) (m : Act (Recorded κ ρ ν) ε α) : Prop :=
  Stays (Within P J) m

namespace Makes

theorem ask {c : κ} (h : ∀ before, P before c) :
    Makes P J (Act.ask env c : Act (Recorded κ ρ ν) ε ρ) := fun s hJ =>
  ⟨⟨[(c, env s.history c)], rfl, allCalls_singleton.2 (h _)⟩, hJ⟩

theorem assign {f : ν → ν} (h : ∀ v, J v → J (f v)) :
    Makes P J (Act.assign f : Act (Recorded κ ρ ν) ε Unit) := fun s hJ =>
  ⟨Recorded.Adds.of_eq rfl, h s.vars hJ⟩

theorem vars : Makes P J (Act.vars : Act (Recorded κ ρ ν) ε ν) := fun s => Within.refl s

theorem pure (a : α) : Makes P J (Pure.pure a : Act (Recorded κ ρ ν) ε α) := Stays.pure Within.refl a

theorem fail (e : ε) : Makes P J (Act.fail e : Act (Recorded κ ρ ν) ε α) := Stays.fail Within.refl e

theorem bind {m : Act (Recorded κ ρ ν) ε α} {f : α → Act (Recorded κ ρ ν) ε β}
    (hm : Makes P J m) (hf : ∀ a, Makes P J (f a)) : Makes P J (m >>= f) :=
  Stays.bind (fun _ _ _ => Within.trans) hm hf

theorem map {f : α → β} {m : Act (Recorded κ ρ ν) ε α} (hm : Makes P J m) : Makes P J (f <$> m) :=
  bind hm fun a => pure (f a)

theorem ite {c : Prop} [Decidable c] {m m' : Act (Recorded κ ρ ν) ε α} (h : c → Makes P J m)
    (h' : ¬ c → Makes P J m') : Makes P J (if c then m else m') := Stays.ite h h'

theorem mono {m : Act (Recorded κ ρ ν) ε α} (h : Makes P J m) (hPQ : ∀ before c, P before c → Q before c) :
    Makes Q J m := Stays.mono h fun _ _ hs hJ => ⟨(hs hJ).1.mono hPQ, (hs hJ).2⟩

theorem attempt {ε' : Type} {m : Act (Recorded κ ρ ν) ε α} (h : Makes P J m) :
    Makes P J (Act.attempt m : Act (Recorded κ ρ ν) ε' (Except ε α)) := Stays.attempt h

theorem each {γ : Type} [DecidableEq γ] {go : γ} {body : ι → Act (Recorded κ ρ ν) ε γ}
    {xs : List ι} (h : ∀ x, Makes P J (body x)) : Makes P J (Act.each go body xs) :=
  Stays.each Within.refl (fun _ _ _ => Within.trans) h xs

end Makes

/-- `m` makes only such calls, and the value it returns satisfies `T`. -/
def Yields (P : List (κ × ρ) → κ → Prop) (J : ν → Prop) (T : α → Prop)
    (m : Act (Recorded κ ρ ν) ε α) : Prop :=
  ∀ s, J s.vars → wp m (fun a s' => Within P J s s' ∧ T a) (fun _ s' => Within P J s s') s

namespace Yields

variable {T : α → Prop} {U : β → Prop}

theorem pure {a : α} (h : T a) : Yields P J T (Pure.pure a : Act (Recorded κ ρ ν) ε α) :=
  fun s _ => ⟨Within.refl s, h⟩

theorem of_makes {m : Act (Recorded κ ρ ν) ε α} (h : Makes P J m) (hT : ∀ a, T a) :
    Yields P J T m := fun s _ =>
  wp_mono (h.wp s) (fun a _ hs => ⟨hs, hT a⟩) fun _ _ hs => hs

theorem mono {T' : α → Prop} {m : Act (Recorded κ ρ ν) ε α} (h : Yields P J T m)
    (hT : ∀ a, T a → T' a) : Yields P J T' m := fun s hJ =>
  wp_mono (h s hJ) (fun a _ hs => ⟨hs.1, hT a hs.2⟩) fun _ _ hs => hs

theorem bind {m : Act (Recorded κ ρ ν) ε α} {f : α → Act (Recorded κ ρ ν) ε β} (hm : Yields P J T m)
    (hf : ∀ a, T a → Yields P J U (f a)) : Yields P J U (m >>= f) := by
  intro s hJ
  rw [wp_bind]
  refine wp_mono (hm s hJ) (fun a s' h => ?_) (fun _ _ h => h)
  exact wp_mono (hf a h.2 s' (h.1 hJ).2) (fun b s'' h' => ⟨h.1.trans h'.1, h'.2⟩)
    fun _ _ h' => h.1.trans h'

theorem calls {m : Act (Recorded κ ρ ν) ε α} (h : Yields P J T m)
    (hPQ : ∀ before c, P before c → Q before c) : Yields Q J T m := fun s hJ =>
  wp_mono (h s hJ) (fun _ _ hs => ⟨fun hJ => ⟨(hs.1 hJ).1.mono hPQ, (hs.1 hJ).2⟩, hs.2⟩)
    fun _ _ hs hJ => ⟨(hs hJ).1.mono hPQ, (hs hJ).2⟩

/-- A call whose answer is known. -/
theorem ask {c : κ} {T : ρ → Prop} (h : ∀ before, P before c) (hT : ∀ before, T (env before c)) :
    Yields P J T (Act.ask env c : Act (Recorded κ ρ ν) ε ρ) := fun s _ =>
  ⟨(Makes.ask h : Makes P J (Act.ask env c : Act (Recorded κ ρ ν) ε ρ)) s, hT _⟩

/-- The variables satisfy what has been kept of them. -/
theorem vars : Yields P J J (Act.vars : Act (Recorded κ ρ ν) ε ν) := fun s hJ =>
  ⟨Within.refl s, hJ⟩

theorem makes {m : Act (Recorded κ ρ ν) ε α} (h : Yields P J T m) : Makes P J m := fun s hJ =>
  wp_state (wp_mono (h s hJ) (fun _ _ hs => hs.1) fun _ _ hs => hs) hJ

/-- What comes after may use what the value satisfies. -/
theorem bindMakes {m : Act (Recorded κ ρ ν) ε α} {f : α → Act (Recorded κ ρ ν) ε β}
    (hm : Yields P J T m) (hf : ∀ a, T a → Makes P J (f a)) : Makes P J (m >>= f) :=
  (bind hm (U := fun _ => True) fun a ha => of_makes (hf a ha) fun _ => trivial).makes

end Yields

/-- Where `K` holds of the calls so far, `m` makes only calls that satisfy `P`, and when it returns
`T` holds of its value and of the calls by then. -/
def Learns (P : List (κ × ρ) → κ → Prop) (J : ν → Prop) (K : List (κ × ρ) → Prop)
    (T : α → List (κ × ρ) → Prop) (m : Act (Recorded κ ρ ν) ε α) : Prop :=
  ∀ s, J s.vars → K s.history →
    wp m (fun a s' => Within P J s s' ∧ T a s'.history) (fun _ s' => Within P J s s') s

/-- What holds of some calls holds of more of them. -/
def Lasting (K : List (κ × ρ) → Prop) : Prop := ∀ h es, K h → K (h ++ es)

theorem Lasting.mem (e : κ × ρ) : Lasting fun h => e ∈ h := fun _ es he => List.mem_append_left es he

theorem Lasting.and {K K' : List (κ × ρ) → Prop} (h : Lasting K) (h' : Lasting K') :
    Lasting fun l => K l ∧ K' l := fun l es hl => ⟨h l es hl.1, h' l es hl.2⟩

/-- What holds of some calls holds still after one more that satisfies `P`. -/
def Closed (P : List (κ × ρ) → κ → Prop) (K : List (κ × ρ) → Prop) : Prop :=
  ∀ h e, K h → P h e.1 → K (h ++ [e])

theorem Lasting.closed {K : List (κ × ρ) → Prop} (hK : Lasting K) : Closed P K :=
  fun h e hh _ => hK h [e] hh

theorem Closed.and {K K' : List (κ × ρ) → Prop} (h : Closed P K) (h' : Closed P K') :
    Closed P fun l => K l ∧ K' l := fun l e hl hP => ⟨h l e hl.1 hP, h' l e hl.2 hP⟩

/-- What is kept by each call is kept by several. -/
theorem Closed.append {K : List (κ × ρ) → Prop} (hK : Closed P K) {es : List (κ × ρ)} :
    ∀ h, K h → AllCalls (fun before => P (h ++ before)) es → K (h ++ es) := by
  induction es with
  | nil => exact fun h hh _ => by rwa [List.append_nil]
  | cons e es ih =>
    intro h hh hes
    rw [List.append_cons]
    refine ih (h ++ [e]) (hK h e hh (by simpa using hes [] e es rfl)) ?_
    intro before call after hsplit
    have hcall : P (h ++ e :: before) call.1 := hes (e :: before) call after (by rw [hsplit]; rfl)
    rwa [List.append_cons] at hcall

namespace Learns

variable {K K' : List (κ × ρ) → Prop} {T T' : α → List (κ × ρ) → Prop}
  {U : β → List (κ × ρ) → Prop}

theorem pure {a : α} (h : ∀ l, K l → T a l) :
    Learns P J K T (Pure.pure a : Act (Recorded κ ρ ν) ε α) := fun s _ hK =>
  ⟨Within.refl s, h _ hK⟩

theorem fail (e : ε) : Learns P J K T (Act.fail e : Act (Recorded κ ρ ν) ε α) := fun s _ _ =>
  Within.refl s

theorem mono {m : Act (Recorded κ ρ ν) ε α} (h : Learns P J K T m) (hT : ∀ a l, T a l → T' a l) :
    Learns P J K T' m := fun s hJ hK =>
  wp_mono (h s hJ hK) (fun _ _ hs => ⟨hs.1, hT _ _ hs.2⟩) fun _ _ hs => hs

theorem weaken {m : Act (Recorded κ ρ ν) ε α} (h : Learns P J K' T m) (hK : ∀ l, K l → K' l) :
    Learns P J K T m := fun s hJ hs => h s hJ (hK _ hs)

/-- What is known of anything but the calls is a hypothesis. -/
theorem given {φ : Prop} {m : Act (Recorded κ ρ ν) ε α} (h : φ → Learns P J K T m) :
    Learns P J (fun l => K l ∧ φ) T m := fun s hJ hK => h hK.2 s hJ hK.1

theorem bind {m : Act (Recorded κ ρ ν) ε α} {f : α → Act (Recorded κ ρ ν) ε β}
    (hm : Learns P J K T m) (hf : ∀ a, Learns P J (T a) U (f a)) : Learns P J K U (m >>= f) := by
  intro s hJ hK
  rw [wp_bind]
  refine wp_mono (hm s hJ hK) (fun a s' h => ?_) (fun _ _ h => h)
  exact wp_mono (hf a s' (h.1 hJ).2 h.2) (fun b s'' h' => ⟨h.1.trans h'.1, h'.2⟩)
    fun _ _ h' => h.1.trans h'

theorem ite {c : Prop} [Decidable c] {m m' : Act (Recorded κ ρ ν) ε α} (h : c → Learns P J K T m)
    (h' : ¬ c → Learns P J K T m') : Learns P J K T (if c then m else m') := by
  split
  · next hc => exact h hc
  · next hc => exact h' hc

theorem ask {c : κ} (h : ∀ l, K l → P l c) :
    Learns P J K (fun r l => ∃ l₀, K l₀ ∧ r = env l₀ c ∧ l = l₀ ++ [(c, r)])
      (Act.ask env c : Act (Recorded κ ρ ν) ε ρ) := fun s _ hK =>
  ⟨fun hJ => ⟨⟨[(c, env s.history c)], rfl,
    allCalls_singleton.2 (by simpa using h s.history hK)⟩, hJ⟩, s.history, hK, rfl, rfl⟩

theorem assign {f : ν → ν} (h : ∀ v, J v → J (f v)) :
    Learns P J K (fun _ l => K l) (Act.assign f : Act (Recorded κ ρ ν) ε Unit) := fun s _ hK =>
  ⟨fun hJ => ⟨Recorded.Adds.of_eq rfl, h s.vars hJ⟩, hK⟩

/-- What every call keeps is kept by a part that is known to yield something. -/
theorem of_yields {T : α → Prop} {m : Act (Recorded κ ρ ν) ε α} (hK : Closed P K)
    (h : Yields P J T m) : Learns P J K (fun a l => T a ∧ K l) m := fun s hJ hs =>
  wp_mono (h s hJ) (fun a s' h' => ⟨h'.1, h'.2, by
    obtain ⟨es, hes, hP⟩ := (h'.1 hJ).1
    rw [hes]
    exact hK.append _ hs hP⟩) fun _ _ h' => h'

theorem of_closed {m : Act (Recorded κ ρ ν) ε α} (hK : Closed P K) (h : Makes P J m) :
    Learns P J K (fun _ l => K l) m :=
  (of_yields hK (Yields.of_makes h fun _ => trivial)).mono fun _ _ hl => hl.2

theorem of_makes {m : Act (Recorded κ ρ ν) ε α} (hK : Lasting K) (h : Makes P J m) :
    Learns P J K (fun _ l => K l) m := of_closed hK.closed h

/-- What lasts is kept besides. -/
theorem keeping {m : Act (Recorded κ ρ ν) ε α} (h : Learns P J K T m) (hK : Lasting K') :
    Learns P J (fun l => K l ∧ K' l) (fun a l => K' l ∧ T a l) m := fun s hJ hs =>
  wp_mono (h s hJ hs.1) (fun a s' h' => ⟨h'.1, by
    obtain ⟨es, hes, -⟩ := (h'.1 hJ).1
    rw [hes]
    exact hK _ _ hs.2, h'.2⟩) fun _ _ h' => h'

theorem makes {m : Act (Recorded κ ρ ν) ε α} (h : Learns P J (fun _ => True) T m) : Makes P J m :=
  fun s hJ => wp_state (wp_mono (h s hJ trivial) (fun _ _ hs => hs.1) fun _ _ hs => hs) hJ

/-- Where what is known allows every call, any part may follow. -/
theorem of_allowed {Q : List (κ × ρ) → κ → Prop} {m : Act (Recorded κ ρ ν) ε α} (hK : Lasting K)
    (hP : ∀ l c, K l → P l c) (h : Makes Q J m) : Learns P J K (fun _ l => K l) m := by
  intro s hJ hs
  refine wp_mono (h.wp s) (fun _ s' h' => ?_) fun _ s' h' => ?_
  · obtain ⟨⟨es, hes, -⟩, hJ'⟩ := h' hJ
    refine ⟨fun _ => ⟨⟨es, hes, fun before _ _ _ => hP _ _ (hK _ _ hs)⟩, hJ'⟩, ?_⟩
    rw [hes]
    exact hK _ _ hs
  · obtain ⟨⟨es, hes, -⟩, hJ'⟩ := h' hJ
    exact fun _ => ⟨⟨es, hes, fun before _ _ _ => hP _ _ (hK _ _ hs)⟩, hJ'⟩

end Learns

end Act

end Aurade
