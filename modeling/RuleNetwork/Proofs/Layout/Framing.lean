import RuleNetwork.Proofs.Layout.Decisions

/-!
How the states of a built grammar hang together. A transition stays in its rule, unless it is a call, and
then it resumes there; a rule ends in one state, which nothing leaves; only decisions branch. Every choice
of a body is laid out at a decision whose ways out lead to its options in their order, and the one of the
whole body has the lowest number of all decisions of the rule.
-/

set_option autoImplicit false

namespace RuleNetwork

open Network Layout

/-- How the transitions of a grammar connect the states of its rules. -/
structure Grammar.Framed (g : Grammar) : Prop where
  owned : ∀ {s st}, g.network.state s = .ok st → ∃ r ∈ g.ruleList, st.rule = r.index
  start : ∀ r ∈ g.ruleList, ∃ st, g.network.state r.start = .ok st ∧ st.rule = r.index ∧
    st.kind = .ruleStart
  stop : ∀ r ∈ g.ruleList, ∃ st, g.network.state r.stop = .ok st ∧ st.rule = r.index ∧
    st.kind = .ruleStop ∧ st.transitions = []
  /-- A rule stops nowhere else. -/
  ends : ∀ r ∈ g.ruleList, ∀ {s st}, g.network.state s = .ok st → st.rule = r.index →
    st.kind = .ruleStop → s = r.stop
  /-- Every transition leaves some state. -/
  source : ∀ {id t}, g.network.transition id = .ok t → ∃ s, g.network.Leaves s id t
  leaves : ∀ {s st}, g.network.state s = .ok st → ∀ id ∈ st.transitions, ∃ t, g.network.Leaves s id t
  /-- What is no call leads on in its rule, and not to its start. -/
  stays : ∀ {rule s id t}, g.network.Owns rule s → g.network.Leaves s id t → t.kind ≠ .ruleCall →
    g.network.Inside rule t.target
  calls : ∀ {rule s id t}, g.network.Owns rule s → g.network.Leaves s id t → t.kind = .ruleCall →
    ∃ callee ∈ g.ruleList, ∃ follow, t.rule = some callee.index ∧ t.target = callee.start ∧
      t.follow = some follow ∧ g.network.Inside rule follow
  single : ∀ {s st}, g.network.state s = .ok st → st.kind ≠ .decision → st.transitions.length ≤ 1

theorem Grammar.Proper.framed {g : Grammar} (hg : g.Proper) : g.Framed where
  owned hs := by
    obtain ⟨i, hi, hr⟩ := (hg.network.state hs).rule
    obtain ⟨r, hmem, hindex, -⟩ := hg.exists_mem_ruleList hi
    exact ⟨r, hmem, hr.trans hindex.symm⟩
  start r hr := by
    obtain ⟨i, hi, -, hindex, hstart, -⟩ := hg.exists_rule hr
    obtain ⟨st, hs, hrule, hk⟩ := hg.network.start i hi
    exact ⟨st, hstart ▸ hs, hrule.trans hindex.symm, hk⟩
  stop r hr := by
    obtain ⟨i, hi, -, hindex, -, hstop⟩ := hg.exists_rule hr
    obtain ⟨st, hs, hrule, hk⟩ := hg.network.stop i hi
    exact ⟨st, hstop ▸ hs, hrule.trans hindex.symm, hk, ((hg.network.state hs).stop hk).2⟩
  ends r hr s st hs hrule hk := by
    obtain ⟨i, -, -, hindex, -, hstop⟩ := hg.exists_rule hr
    rw [hstop]
    exact hg.network.eq_stop ⟨st, hs, hrule.trans hindex⟩ ⟨st, hs, hk⟩
  source ht := by
    obtain ⟨s, st, hs, hid⟩ := hg.network.listed ht
    refine ⟨s, st, hs, fun hk => ?_, hid, ht⟩
    rw [((hg.network.state hs).stop hk).2] at hid
    cases hid
  leaves hs id hid := by
    obtain ⟨k, hk⟩ := List.getElem?_of_mem hid
    exact hg.network.leaves_of_offers ⟨_, hs, k, hk, rfl⟩
  stays ho ht hk := by
    obtain ⟨-, hin⟩ | ⟨callee, follow, -, hc, -⟩ := hg.network.fits ht ho
    · exact hin
    · exact absurd (Transition.kind_of_call? hc) hk
  calls ho ht hk := by
    obtain ⟨hne, -⟩ | ⟨callee, follow, hcallee, hc, htarget, hin⟩ := hg.network.fits ht ho
    · exact absurd hk hne
    · obtain ⟨-, hrule, hfollow⟩ := Transition.of_call? hc
      obtain ⟨r, hmem, hindex, hstart, -⟩ := hg.exists_mem_ruleList hcallee
      exact ⟨r, hmem, follow, hrule.trans (congrArg some hindex.symm), htarget.trans hstart.symm, hfollow,
        hin⟩
  single hs hk := (hg.network.state hs).single hk

/-- The first body is the second one, or stands somewhere in it. -/
inductive Element.Part {ρ : Type} (e : Element ρ) : Element ρ → Prop
  | whole : Part e e
  | sequence {items : List (Element ρ)} {x : Element ρ} : x ∈ items → Part e x →
      Part e (.sequence items)
  | choice {options : List (Element ρ)} {x : Element ρ} : x ∈ options → Part e x →
      Part e (.choice options)
  | star {body : Element ρ} : Part e body → Part e (.star body)
  | plus {body : Element ρ} : Part e body → Part e (.plus body)
  | option {body : Element ρ} : Part e body → Part e (.option body)

namespace Network

variable {n : Network} {rule : Nat} {e : Element Nat} {a b : Int}

/-- At a decision of the rule the ways out lead to the options in their order, each of which is laid out
in the rule up to a common end. -/
def Forks (n : Network) (rule : Nat) (options : List (Element Nat)) (s : Int) : Prop :=
  ∃ (entries : List Int) (z : Int), n.At s rule .decision (entries.map free) ∧ entries.length = options.length ∧
    ∀ (k : Nat) (p : Int) (o : Element Nat), entries[k]? = some p → options[k]? = some o →
      ∃ q, o.LaidIn n rule p q ∧ n.At q rule .basic [free z]

theorem Forks.exists_state {options : List (Element Nat)} {s : Int} (h : n.Forks rule options s) :
    ∃ st, n.state s = .ok st ∧ st.kind = .decision ∧ st.transitions.length = options.length := by
  obtain ⟨entries, -, ⟨st, hst, -, hkind, hout⟩, hlen, -⟩ := h
  have hways := (mapM_eq_ok.1 hout).length_eq
  rw [List.length_map, hlen] at hways
  exact ⟨st, hst, hkind, hways⟩

theorem exists_laidIn_of_rest {items : List (Element Nat)} (h : LaidRestIn n rule items a b)
    (he : e ∈ items) : ∃ p q, e.LaidIn n rule p q := by
  induction items generalizing a with
  | nil => cases he
  | cons x r ih =>
    obtain ⟨p, q, -, hx, hr⟩ := h
    rcases List.mem_cons.1 he with rfl | he
    · exact ⟨p, q, hx⟩
    · exact ih hr he

theorem laidIn_of_options {options : List (Element Nat)} {entries : List Int} {z : Int}
    (h : LaidOptionsIn n rule options entries z) :
    entries.length = options.length ∧ ∀ (k : Nat) (p : Int) (o : Element Nat),
      entries[k]? = some p → options[k]? = some o → ∃ q, o.LaidIn n rule p q ∧ n.At q rule .basic [free z] := by
  induction options generalizing entries with
  | nil =>
    cases entries with
    | nil => simp
    | cons p r => exact h.elim
  | cons o options ih =>
    cases entries with
    | nil => exact h.elim
    | cons p r =>
      obtain ⟨hfirst, hrest⟩ := h
      obtain ⟨hlen, hall⟩ := ih hrest
      refine ⟨by simp [hlen], fun k p' o' hp ho => ?_⟩
      cases k with
      | zero =>
        cases hp
        cases ho
        exact hfirst
      | succ k => exact hall k p' o' (by simpa using hp) (by simpa using ho)

theorem exists_laidIn_of_options {options : List (Element Nat)} {entries : List Int} {z : Int}
    (h : LaidOptionsIn n rule options entries z) (he : e ∈ options) :
    ∃ p q, e.LaidIn n rule p q := by
  obtain ⟨hlen, hall⟩ := laidIn_of_options h
  obtain ⟨k, hk, rfl⟩ := List.getElem_of_mem he
  obtain ⟨q, hq, -⟩ := hall k entries[k] options[k] (List.getElem?_eq_getElem (by omega))
    (List.getElem?_eq_getElem hk)
  exact ⟨_, q, hq⟩

/-- What stands in a body is laid out where the body is. -/
theorem exists_laidIn_of_part {body : Element Nat} (h : Element.Part e body)
    (hbody : body.LaidIn n rule a b) : ∃ p q, e.LaidIn n rule p q := by
  induction h generalizing a b with
  | whole => exact ⟨a, b, hbody⟩
  | @sequence items x hx _ ih =>
    cases items with
    | nil => cases hx
    | cons y r =>
      obtain ⟨m, hy, hr⟩ := hbody
      rcases List.mem_cons.1 hx with rfl | hx
      · exact ih hy
      · obtain ⟨p, q, hx⟩ := exists_laidIn_of_rest hr hx
        exact ih hx
  | @choice options x hx _ ih =>
    match options, hx, hbody with
    | [y], hx, hbody =>
      rw [List.mem_singleton.1 hx] at ih
      exact ih hbody
    | _ :: _ :: _, hx, hbody =>
      obtain ⟨entries, -, hl⟩ := hbody
      obtain ⟨p, q, hx⟩ := exists_laidIn_of_options hl hx
      exact ih hx
  | star _ ih =>
    obtain ⟨p, q, -, hin, -⟩ := hbody
    exact ih hin
  | plus _ ih =>
    obtain ⟨q, d, hin, -⟩ := hbody
    exact ih hin
  | option _ ih =>
    obtain ⟨p, q, -, hin, -⟩ := hbody
    exact ih hin

theorem forks_of_laidIn {options : List (Element Nat)} (hlen : options.length ≠ 1)
    (h : (Element.choice options).LaidIn n rule a b) : n.Forks rule options a := by
  match options, hlen, h with
  | [], _, ⟨entries, hat, hl⟩ | _ :: _ :: _, _, ⟨entries, hat, hl⟩ =>
    exact ⟨entries, b, hat, laidIn_of_options hl⟩

end Network

namespace Builder

variable {b b' : Builder} {g : Grammar}

theorem laidAsIn_of_build (h : build.run.run b = (.ok g, b')) {j : Nat} {d : Declaration}
    (hd : b.rules[j]? = some d) : ((bodyOf d).rename b.number).LaidAsIn g.network j := by
  obtain ⟨-, hnet, -, -, hwithin⟩ := build_ok h
  rw [hnet]
  exact laidAsIn_networkOf hwithin (by simp [bodies, hd])

/-- The states of the rule compiled from a declaration are laid out as its body says. -/
structure Arranges (b : Builder) (g : Grammar) (j : Nat) (d : Declaration) (r : Rule) : Prop where
  body : ((bodyOf d).rename b.number).LaidAsIn g.network j
  /-- Only a choice of one option has no decision of its own. -/
  choices : ∀ {options : List (Element Nat)},
    Element.Part (.choice options) ((bodyOf d).rename b.number) → options.length ≠ 1 →
      ∃ s, g.network.Forks j options s
  /-- The choice between several alternatives of the rule is the decision of the lowest number. -/
  outermost : 2 ≤ r.alternatives → ∃ options s st, d.body = some (.choice options) ∧
    g.network.Forks j (renameAll b.number options) s ∧ g.network.state s = .ok st ∧
    st.kind = .decision ∧ (st.transitions.length : Int) = r.alternatives ∧
    ∀ {s' : Int} {st' : State}, g.network.state s' = .ok st' → st'.kind = .decision → st'.rule = j →
      s ≤ s'

theorem exists_choice {j : Nat} {d : Declaration} (hmany : 2 ≤ (ruleOf j d).alternatives) :
    ∃ options, d.body = some (.choice options) ∧ 2 ≤ options.length ∧
      (ruleOf j d).alternatives = options.length := by
  cases hbody : d.body with
  | none => simp [ruleOf, hbody] at hmany
  | some e =>
    cases e with
    | choice options =>
      have hcount : (ruleOf j d).alternatives = options.length := by
        simp [ruleOf, hbody, Element.alternatives]
      exact ⟨options, rfl, by omega, hcount⟩
    | _ => simp [ruleOf, hbody, Element.alternatives] at hmany

theorem arranges_of_build (h : build.run.run b = (.ok g, b')) {j : Nat} {d : Declaration}
    (hd : b.rules[j]? = some d) : b.Arranges g j d (ruleOf j d) where
  body := laidAsIn_of_build h hd
  choices hpart hlen := by
    obtain ⟨_, _, -, hin, -⟩ := laidAsIn_of_build h hd
    obtain ⟨s, _, hs⟩ := exists_laidIn_of_part hpart hin
    exact ⟨s, forks_of_laidIn hlen hs⟩
  outermost hmany := by
    obtain ⟨options, hbody, hlen, hcount⟩ := exists_choice hmany
    have hlen' : (renameAll b.number options).length = options.length := by
      rw [renameAll_eq_map, List.length_map]
    obtain ⟨p, q, hstart, hin, -⟩ := laidAsIn_of_build h hd
    obtain ⟨s, hs, hlowest⟩ := decides_of_build h hd hbody hlen
    obtain rfl : s = p := by
      have := hs.enters.unique (hstart.exits (by decide))
      simpa [free] using this
    have hchoice : (bodyOf d).rename b.number = .choice (renameAll b.number options) := by
      simp [bodyOf, hbody, Element.rename]
    rw [hchoice] at hin
    have hforks := forks_of_laidIn (by omega) hin
    obtain ⟨st, hst, hkind, hways⟩ := hforks.exists_state
    exact ⟨options, s, st, hbody, hforks, hst, hkind, by rw [hcount, hways, hlen'], hlowest⟩

/-- A built grammar is framed, and each of its rules is laid out as declared. -/
theorem structure_of_build (h : build.run.run b = (.ok g, b')) :
    g.Framed ∧ ∀ {j : Nat} {r : Rule}, g.rules[j]? = some r →
      ∃ d, b.rules[j]? = some d ∧ b.Arranges g j d r := by
  refine ⟨(proper_of_build h).framed, fun {j r} hr => ?_⟩
  obtain ⟨d, hd⟩ := exists_declaration h (Array.getElem?_eq_some_iff.1 hr).1
  obtain rfl : r = ruleOf j d := Option.some.inj (hr.symm.trans (rule_of_declaration h hd))
  exact ⟨d, hd, arranges_of_build h hd⟩

/-- A choice with a loop and another choice in it, in a rule that calls itself. -/
def forked : Builder where
  name := "forked"
  rules := [
    { name := "s", kind := .parser,
      body := some (.choice [
        .plus (.token ["'a'"]),
        .sequence [.call "s", .choice [.token ["'b'"], .empty, .option (.call "r")]]]) },
    { name := "r", kind := .parser, body := some (.star (.guard "p")) }]

theorem forked_structure : ∃ g b' r d, build.run.run forked = (.ok g, b') ∧ g.Framed ∧
    g.rules[0]? = some r ∧ forked.rules[0]? = some d ∧ forked.Arranges g 0 d r ∧
    r.alternatives = 2 := by
  have hb : build.run.run forked = (.ok _, _) := rfl
  obtain ⟨hframed, hrules⟩ := structure_of_build hb
  have hr := rule_of_declaration hb (j := 0) rfl
  obtain ⟨d, hd, harranges⟩ := hrules hr
  exact ⟨_, _, _, d, hb, hframed, hr, hd, harranges, by decide⟩

end Builder

end RuleNetwork
