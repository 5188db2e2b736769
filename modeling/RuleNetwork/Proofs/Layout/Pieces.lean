import RuleNetwork.Proofs.Layout.Laid

/-!
Every body that can be laid out gets a piece of its shape, and the network stays proper.
-/

set_option autoImplicit false

namespace RuleNetwork

namespace Layout

open Network

variable {rules rule : Nat} {a a' : Arena} {e body : Element Nat} {p : Piece}

theorem Lays.ne_exit {s r : Int} {k : StateKind} {l : List Transition}
    (h : Lays rules rule e a p a') (hs : a.network.At s r k l) : s ≠ p.exit := by
  have hlt : s < a.states.size := hs.bounds.2
  have hnew := h.exit_new
  omega

theorem Lays.reshape {e' : Element Nat} (h : Lays rules rule e a p a')
    (he : ∀ n x y, e.LaidIn n rule x y → e'.LaidIn n rule x y) : Lays rules rule e' a p a' :=
  { h with laid := fun n hn => he n _ _ (h.laid n hn) }

/-- A decision between a body and its end, after whose body the walk goes on at `z`. -/
theorem lays_branch {d f z : Int} {a₁ a₂ : Arena} (ho : Opens rules rule .decision a d f a₁)
    (hb : Lays rules rule body a₁ p a₂) (hz : z = d ∨ z = f)
    (he : ∀ n p q, n.At d rule .decision [free p, free f] → body.LaidIn n rule p q →
      n.At q rule .basic [free z] → e.LaidIn n rule d f) :
    Lays rules rule e a ⟨d, f⟩
      (connect p.exit (free z) (connect d (free f) (connect d (free p.entry) a₂).2).2).2 := by
  have hdq := Ne.symm (hb.ne_exit ho.first)
  have hfq := hb.ne_exit ho.last
  -- the decision leads to the body, then to the end
  have h₁ := joins_connect hb.proper (hb.keeps ho.first) (by decide) (.inl rfl) (free_fits hb.entry)
  have hf₁ := h₁.keeps ho.ne (hb.keeps ho.last)
  have h₂ := joins_connect h₁.proper h₁.joined (by decide) (.inl rfl)
    (free_fits (hf₁.inside (by decide)))
  have hf₂ := h₂.keeps ho.ne hf₁
  -- from the exit of the body the walk goes on
  have hz₂ : (connect d (free f) (connect d (free p.entry) a₂).2).2.network.Inside rule z := by
    obtain rfl | rfl := hz
    · exact h₂.joined.inside (by decide)
    · exact hf₂.inside (by decide)
  have h₃ := joins_connect h₂.proper (h₂.keeps hdq (h₁.keeps hdq hb.exit)) (by decide) (.inr rfl)
    (free_fits hz₂)
  have hd₃ := h₃.keeps (Ne.symm hdq) h₂.joined
  have hf₃ := h₃.keeps hfq hf₂
  have keeps : ∀ {s r k l}, s ≠ d → s ≠ p.exit → a₂.network.At s r k l →
      (connect p.exit (free z)
        (connect d (free f) (connect d (free p.entry) a₂).2).2).2.network.At s r k l :=
    fun hs hs' h => h₃.keeps hs' (h₂.keeps hs (h₁.keeps hs h))
  have hd := ho.first_eq
  have hf := ho.last_eq
  have hopen := ho.size
  have hsize := hb.size
  have hnew := hb.exit_new
  exact {
    proper := h₃.proper
    grows := (((ho.grows.trans hb.grows).trans h₁.grows).trans h₂.grows).trans h₃.grows
    size := by rw [h₃.size, h₂.size, h₁.size]; omega
    keeps := fun h =>
      keeps (ho.at_ne h).1 (hb.ne_exit (ho.keeps h)) (hb.keeps (ho.keeps h))
    entry_new := by simp only; omega
    entry := hd₃.inside (by decide)
    exit_new := by simp only; omega
    exit := hf₃
    laid := fun n hn => by
      refine he n p.entry p.exit ?_ (hb.laid n fun s r k l hs hne h => ?_) ?_
      · exact hn _ _ _ _ (by omega) (Ne.symm ho.ne) hd₃
      · exact hn _ _ _ _ (by omega) (by simp only; omega) (keeps (by omega) hne h)
      · exact hn _ _ _ _ (by omega) (Ne.symm hfq) h₃.joined }

theorem lays_option (ha : a.network.Proper rules) (hr : rule < rules)
    (hbody : ∀ b : Arena, b.network.Proper rules →
      Lays rules rule body b (body.layout startState rule b).1 (body.layout startState rule b).2) :
    Lays rules rule (.option body) a ((Element.option body).layout startState rule a).1
      ((Element.option body).layout startState rule a).2 := by
  have ho := opens_fresh .decision ha hr (by decide) (by decide)
  exact lays_branch ho (hbody _ ho.proper) (.inr rfl) fun n p q hd hl hq => ⟨p, q, hd, hl, hq⟩

theorem lays_star (ha : a.network.Proper rules) (hr : rule < rules)
    (hbody : ∀ b : Arena, b.network.Proper rules →
      Lays rules rule body b (body.layout startState rule b).1 (body.layout startState rule b).2) :
    Lays rules rule (.star body) a ((Element.star body).layout startState rule a).1
      ((Element.star body).layout startState rule a).2 := by
  have ho := opens_fresh .decision ha hr (by decide) (by decide)
  exact lays_branch ho (hbody _ ho.proper) (.inl rfl) fun n p q hd hl hq => ⟨p, q, hd, hl, hq⟩

/-- A decision after a body, between a further round and the end. -/
theorem lays_plus {d f : Int} {b b₁ : Arena} (hb : Lays rules rule body a p b)
    (ho : Opens rules rule .decision b d f b₁) :
    Lays rules rule (.plus body) a ⟨p.entry, f⟩
      (connect d (free f) (connect d (free p.entry) (connect p.exit (free d) b₁).2).2).2 := by
  obtain ⟨hqd, hqf⟩ := ho.at_ne hb.exit
  -- the exit of the body leads to the decision, which leads back to the body, then to the end
  have h₁ := joins_connect ho.proper (ho.keeps hb.exit) (by decide) (.inr rfl)
    (free_fits (ho.first.inside (by decide)))
  have h₂ := joins_connect h₁.proper (h₁.keeps (Ne.symm hqd) ho.first) (by decide) (.inl rfl)
    (free_fits (hb.entry.mono (ho.grows.trans h₁.grows)))
  have hf₂ := h₂.keeps ho.ne (h₁.keeps (Ne.symm hqf) ho.last)
  have h₃ := joins_connect h₂.proper h₂.joined (by decide) (.inl rfl)
    (free_fits (hf₂.inside (by decide)))
  have hf₃ := h₃.keeps ho.ne hf₂
  have hgrows := ((ho.grows.trans h₁.grows).trans h₂.grows).trans h₃.grows
  have keeps : ∀ {s r k l}, s ≠ p.exit → b.network.At s r k l →
      (connect d (free f)
        (connect d (free p.entry) (connect p.exit (free d) b₁).2).2).2.network.At s r k l :=
    fun hs h => h₃.keeps (ho.at_ne h).1 (h₂.keeps (ho.at_ne h).1 (h₁.keeps hs (ho.keeps h)))
  have hd := ho.first_eq
  have hf := ho.last_eq
  have hopen := ho.size
  have hsize := hb.size
  exact {
    proper := h₃.proper
    grows := hb.grows.trans hgrows
    size := by rw [h₃.size, h₂.size, h₁.size]; omega
    keeps := fun h => keeps (hb.ne_exit h) (hb.keeps h)
    entry_new := hb.entry_new
    entry := hb.entry.mono hgrows
    exit_new := by simp only; omega
    exit := hf₃
    laid := fun n hn => by
      refine ⟨p.exit, d, hb.laid n fun s r k l hs hne h => ?_, ?_, ?_⟩
      · exact hn _ _ _ _ (by omega) (ho.at_ne h).2 (keeps hne h)
      · exact hn _ _ _ _ hb.exit_new hqf (h₃.keeps hqd (h₂.keeps hqd h₁.joined))
      · exact hn _ _ _ _ (by omega) (Ne.symm ho.ne) h₃.joined }

/-- What stringing further elements after an exit makes of an arena. -/
structure LaysRest (rules rule : Nat) (items : List (Element Nat)) (a : Arena) (x y : Int)
    (a' : Arena) : Prop where
  proper : a'.network.Proper rules
  grows : a.network.Extends a'.network
  size : a.states.size ≤ a'.states.size
  keeps : ∀ {s r k l}, s ≠ x → a.network.At s r k l → a'.network.At s r k l
  exit_new : y = x ∨ (a.states.size : Int) ≤ y
  exit : a'.network.At y rule .basic []
  laid : ∀ n, Finishes n a' a.states.size y →
    (∀ r k l, x ≠ y → a'.network.At x r k l → n.At x r k l) → LaidRestIn n rule items x y

theorem lays_rest {items : List (Element Nat)}
    (hitems : ∀ e ∈ items, ∀ b : Arena, b.network.Proper rules →
      Lays rules rule e b (e.layout startState rule b).1 (e.layout startState rule b).2)
    {x : Int} (ha : a.network.Proper rules) (hx : a.network.At x rule .basic []) :
    LaysRest rules rule items a x (layoutRest startState rule x items a).1
      (layoutRest startState rule x items a).2 := by
  induction items generalizing a x with
  | nil =>
    exact ⟨ha, .refl _, Nat.le_refl _, fun _ h => h, .inl rfl, hx, fun n _ _ => rfl⟩
  | cons e items ih =>
    have h₁ := hitems e (List.mem_cons_self ..) a ha
    generalize hp : (e.layout startState rule a).1 = p at h₁
    generalize hb : (e.layout startState rule a).2 = b at h₁
    have hxp := h₁.ne_exit hx
    have h₂ := joins_connect h₁.proper (h₁.keeps hx) (by decide) (.inr rfl) (free_fits h₁.entry)
    have h₃ := ih (fun e he => hitems e (List.mem_cons_of_mem _ he)) h₂.proper
      (h₂.keeps (Ne.symm hxp) h₁.exit)
    have hlay : layoutRest startState rule x (e :: items) a =
        layoutRest startState rule p.exit items (connect x (free p.entry) b).2 := by
      rw [← hp, ← hb]
      rfl
    rw [hlay]
    have hsize := h₁.size
    have hsize₃ := h₃.size
    have hnew := h₁.exit_new
    have hnew₃ := h₃.exit_new
    rw [h₂.size] at hsize₃ hnew₃
    have hxlt : x < a.states.size := hx.bounds.2
    have hplt : p.exit < b.states.size := h₁.exit.bounds.2
    generalize (layoutRest startState rule p.exit items (connect x (free p.entry) b).2).1 = z at *
    exact {
      proper := h₃.proper
      grows := (h₁.grows.trans h₂.grows).trans h₃.grows
      size := by omega
      keeps := fun {s r k l} hs h => h₃.keeps (h₁.ne_exit h) (h₂.keeps hs (h₁.keeps h))
      exit_new := by omega
      exit := h₃.exit
      laid := fun n hn hfrom => by
        refine ⟨p.entry, p.exit, ?_, h₁.laid n fun s r k l hs hne h => ?_,
          h₃.laid n (fun s r k l hs hne h => ?_) fun r k l hne h => ?_⟩
        · exact hfrom _ _ _ (by omega) (h₃.keeps hxp h₂.joined)
        · have hlt : s < b.states.size := h.bounds.2
          exact hn _ _ _ _ hs (by omega) (h₃.keeps hne (h₂.keeps (by omega) h))
        · rw [h₂.size] at hs
          exact hn _ _ _ _ (by omega) hne h
        · exact hn _ _ _ _ hnew hne h }

theorem lays_sequence {items : List (Element Nat)} {b : Arena}
    (hb : Lays rules rule e a p b)
    (hitems : ∀ e ∈ items, ∀ b : Arena, b.network.Proper rules →
      Lays rules rule e b (e.layout startState rule b).1 (e.layout startState rule b).2) :
    Lays rules rule (.sequence (e :: items)) a
      ⟨p.entry, (layoutRest startState rule p.exit items b).1⟩
      (layoutRest startState rule p.exit items b).2 := by
  have h := lays_rest hitems hb.proper hb.exit
  generalize (layoutRest startState rule p.exit items b).1 = z at *
  generalize (layoutRest startState rule p.exit items b).2 = c at *
  have hsize := hb.size
  have hnew := hb.exit_new
  have hnew₂ := h.exit_new
  have hsize₂ := h.size
  have hbx := hb.exit.bounds.2
  simp only [Arena.network] at hbx
  exact {
    proper := h.proper
    grows := hb.grows.trans h.grows
    size := by omega
    keeps := fun {s r k l} hs => h.keeps (hb.ne_exit hs) (hb.keeps hs)
    entry_new := hb.entry_new
    entry := hb.entry.mono h.grows
    exit_new := by simp only; omega
    exit := h.exit
    laid := fun n hn => by
      refine ⟨p.exit, hb.laid n fun s r k l hs hne hat => ?_, h.laid n
        (fun s r k l hs hne hat => ?_) fun r k l hne hat => ?_⟩
      · have hlt := hat.bounds.2
        simp only [Arena.network] at hlt
        exact hn _ _ _ _ hs (by simp only; omega) (h.keeps hne hat)
      · exact hn _ _ _ _ (by omega) hne hat
      · exact hn _ _ _ _ hnew hne hat }

/-- What joining options to a decision and an end makes of an arena. -/
structure LaysOptions (rules rule : Nat) (options : List (Element Nat)) (a : Arena) (d f : Int)
    (l : List Transition) (entries : List Int) (a' : Arena) : Prop where
  proper : a'.network.Proper rules
  grows : a.network.Extends a'.network
  size : a.states.size ≤ a'.states.size
  keeps : ∀ {s r k l}, s ≠ d → a.network.At s r k l → a'.network.At s r k l
  decision : a'.network.At d rule .decision (l ++ entries.map free)
  laid : ∀ n, (∀ s r k l, (a.states.size : Int) ≤ s → a'.network.At s r k l → n.At s r k l) →
    LaidOptionsIn n rule options entries f

theorem lays_options {options : List (Element Nat)}
    (hoptions : ∀ e ∈ options, ∀ b : Arena, b.network.Proper rules →
      Lays rules rule e b (e.layout startState rule b).1 (e.layout startState rule b).2)
    {d f : Int} {l : List Transition} (hne : f ≠ d) (ha : a.network.Proper rules)
    (hd : a.network.At d rule .decision l) (hf : a.network.At f rule .basic []) :
    ∃ entries, LaysOptions rules rule options a d f l entries
      (layoutOptions startState rule d f options a).2 := by
  induction options generalizing a l with
  | nil =>
    refine ⟨[], ha, .refl _, Nat.le_refl _, fun _ h => h, ?_, fun n _ => trivial⟩
    rw [List.map_nil, List.append_nil]
    exact hd
  | cons e options ih =>
    have h₁ := hoptions e (List.mem_cons_self ..) a ha
    generalize hp : (e.layout startState rule a).1 = p at h₁
    generalize hb : (e.layout startState rule a).2 = b at h₁
    have hdp := h₁.ne_exit hd
    have hfp := h₁.ne_exit hf
    -- the decision leads to the option, whose exit leads to the end
    have h₂ := joins_connect h₁.proper (h₁.keeps hd) (by decide) (.inl rfl) (free_fits h₁.entry)
    have hf₂ := h₂.keeps hne (h₁.keeps hf)
    have h₃ := joins_connect h₂.proper (h₂.keeps (Ne.symm hdp) h₁.exit) (by decide) (.inr rfl)
      (free_fits (hf₂.inside (by decide)))
    obtain ⟨entries, h₄⟩ := ih (fun e he => hoptions e (List.mem_cons_of_mem _ he)) h₃.proper
      (h₃.keeps hdp h₂.joined) (h₃.keeps hfp hf₂)
    have hlay : (layoutOptions startState rule d f (e :: options) a).2 =
        (layoutOptions startState rule d f options
          (connect p.exit (free f) (connect d (free p.entry) b).2).2).2 := by
      rw [← hp, ← hb]
      rfl
    have keeps : ∀ {s r k l}, s ≠ d → s ≠ p.exit → b.network.At s r k l →
        (connect p.exit (free f) (connect d (free p.entry) b).2).2.network.At s r k l :=
      fun h h' hs => h₃.keeps h' (h₂.keeps h hs)
    rw [hlay]
    have hsize := h₁.size
    have hsize₄ := h₄.size
    rw [h₃.size, h₂.size] at hsize₄
    have hnew := h₁.exit_new
    have hdlt : d < a.states.size := hd.bounds.2
    refine ⟨p.entry :: entries, {
      proper := h₄.proper
      grows := ((h₁.grows.trans h₂.grows).trans h₃.grows).trans h₄.grows
      size := by omega
      keeps := fun {s r k l} hs h => h₄.keeps hs (keeps hs (h₁.ne_exit h) (h₁.keeps h))
      decision := by simpa using h₄.decision
      laid := fun n hn => ?_ }⟩
    refine ⟨⟨p.exit, h₁.laid n fun s r k l hs hx h => ?_, ?_⟩, h₄.laid n fun s r k l hs h => ?_⟩
    · exact hn _ _ _ _ hs (h₄.keeps (by omega) (keeps (by omega) hx h))
    · exact hn _ _ _ _ hnew (h₄.keeps (Ne.symm hdp) h₃.joined)
    · rw [h₃.size, h₂.size] at hs
      exact hn _ _ _ _ (by omega) h

/-- A choice among options, of which there is not just one. -/
theorem lays_choice {options : List (Element Nat)} (hr : rule < rules) (ha : a.network.Proper rules)
    (hoptions : ∀ e ∈ options, ∀ b : Arena, b.network.Proper rules →
      Lays rules rule e b (e.layout startState rule b).1 (e.layout startState rule b).2)
    (he : ∀ n a b entries, n.At a rule .decision (entries.map free) →
      LaidOptionsIn n rule options entries b → e.LaidIn n rule a b) :
    let a₁ := (fresh rule .decision a).2
    let a₂ := (fresh rule .basic a₁).2
    let d : Int := a.states.size
    let f : Int := a₁.states.size
    Lays rules rule e a ⟨d, f⟩ (layoutOptions startState rule d f options a₂).2 := by
  intro a₁ a₂ d f
  have ho : Opens rules rule .decision a d f a₂ := opens_fresh .decision ha hr (by decide) (by decide)
  obtain ⟨entries, h⟩ := lays_options hoptions ho.ne ho.proper ho.first ho.last
  have hopen := ho.size
  have hf := ho.last_eq
  have hsize := h.size
  exact {
    proper := h.proper
    grows := ho.grows.trans h.grows
    size := by omega
    keeps := fun hs => h.keeps (ho.at_ne hs).1 (ho.keeps hs)
    entry_new := Int.le_refl _
    entry := h.decision.inside (by decide)
    exit_new := by simp only; omega
    exit := h.keeps ho.ne ho.last
    laid := fun n hn => he n d f entries
      (hn _ _ _ _ (Int.le_refl _) (Ne.symm ho.ne) h.decision)
      (h.laid n fun s r k l hs hat => hn _ _ _ _ (by omega) (by simp only; omega) hat) }

/-- The layout of every body that can be laid out. -/
theorem lays_layout (e : Element Nat) (hr : rule < rules) (he : e.Within (· < rules)) (a : Arena)
    (ha : a.network.Proper rules) :
    Lays rules rule e a (e.layout startState rule a).1 (e.layout startState rule a).2 := by
  induction e using Element.induction generalizing a with
  | token names =>
    exact lays_step ha hr (fun n s h => .inl ⟨by simp, h⟩) fun n s s' h => h
  | call callee =>
    exact lays_step ha hr (fun n s h => .inr ⟨callee, s, he, rfl, rfl, h⟩) fun n s s' h => h
  | guard text =>
    exact lays_step ha hr (fun n s h => .inl ⟨by simp, h⟩) fun n s s' h => h
  | empty => exact lays_point ha hr fun n s => rfl
  | unknown => exact he.elim
  | sequence items ih =>
    cases items with
    | nil => exact lays_point ha hr fun n s => rfl
    | cons e items =>
      have hw := allWithin_iff.1 he
      exact lays_sequence (ih e (List.mem_cons_self ..) (hw e (List.mem_cons_self ..)) a ha)
        fun e' he' => ih e' (List.mem_cons_of_mem _ he') (hw e' (List.mem_cons_of_mem _ he'))
  | choice options ih =>
    have hw := allWithin_iff.1 he
    have ih' := fun e he' => ih e he' (hw e he')
    match options, ih' with
    | [], ih' => exact lays_choice hr ha ih' fun n a b entries hx hl => ⟨entries, hx, hl⟩
    | [e], ih' => exact (ih' e (List.mem_cons_self ..) a ha).reshape fun n a b h => h
    | _ :: _ :: _, ih' => exact lays_choice hr ha ih' fun n a b entries hx hl => ⟨entries, hx, hl⟩
  | star body ih => exact lays_star ha hr fun b hb => ih he b hb
  | plus body ih =>
    have hb := ih he a ha
    exact lays_plus hb (opens_fresh .decision hb.proper hr (by decide) (by decide))
  | option body ih => exact lays_option ha hr fun b hb => ih he b hb

end Layout

end RuleNetwork
