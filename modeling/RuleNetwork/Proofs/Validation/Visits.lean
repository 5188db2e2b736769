import RuleNetwork.Proofs.Chart.Counts
import RuleNetwork.Proofs.Chart.Useful
import RuleNetwork.Proofs.Validation.Chart

/-!
What is read off the chart of a sound grammar: the useful visits, the groups of left-recursive
invocations and the numbers of ways. None of it fails, for every visit of the chart is at a state that is
there and at a position of the input.
-/

set_option autoImplicit false

namespace RuleNetwork

open Network

/-- The chart of a sound grammar, its columns filled with what is there. -/
structure Chart.Sound (c : Chart) : Prop where
  index : c.index.Sound
  size : c.columns.size = c.types.size + 1
  placed : ∀ j < c.columns.size, ((c.columns[j]?).getD {}).Placed c.index.grammar.network j
  startRule : c.index.grammar.Numbers c.startRule

namespace Chart

/-- Recognition never fails, and its columns are what the loops that close them make of them. -/
theorem recognize_fills {ix : ChartIndex} (hix : ix.Sound) {r : Rule} (hr : r ∈ ix.grammar.ruleList)
    (types : List String) :
    Yields (recognize ix types r.index).result fun c => c.Sound ∧ c.index = ix ∧
      c.startRule = r.index ∧ Column.Fills ix #[] (.ofList [⟨r.start, 0⟩]) types c.columns := by
  have hstart : ∀ a ∈ (OrderedSet.ofList [(⟨r.start, 0⟩ : Item)]).toList,
      a.Placed ix.grammar.network (#[] : Array Column).size := fun a ha => by
    rw [List.mem_singleton.1 ((OrderedSet.mem_toList_ofList _ _).1 ha)]
    exact ⟨hix.grammar.start r hr, Nat.le_refl _⟩
  obtain ⟨columns, hcolumns, hfills, hsize, hplaced⟩ :=
    Column.exists_fills hix types (fun j hj => by cases hj) hstart
  unfold recognize
  rw [ChartIndex.rule_index hix hr]
  simp only [hcolumns]
  exact .ok ⟨⟨hix, by simpa using hsize, hplaced, ⟨r, hr, rfl⟩⟩, rfl, rfl, hfills⟩

theorem recognize_yields {ix : ChartIndex} (hix : ix.Sound) {i : Int} (hi : ix.grammar.Numbers i)
    (types : List String) :
    Yields (recognize ix types i).result fun c => c.Sound ∧ c.index = ix ∧ c.startRule = i := by
  obtain ⟨r, hr, rfl⟩ := hi
  exact (recognize_fills hix hr types).mono fun _ hc => ⟨hc.1, hc.2.1, hc.2.2.1⟩

variable {c : Chart} (hc : c.Sound)
include hc

theorem Sound.has {v : Visit} (hv : c.contains v = true) : c.index.grammar.network.Has v.state := by
  obtain ⟨d, hd, hmem⟩ := (Option.any_eq_true _ _).1 hv
  have hplaced := hc.placed v.position (Array.getElem?_eq_some_iff.1 hd).1
  rw [hd] at hplaced
  exact (hplaced.items _ ((OrderedSet.contains_iff _ _).1 hmem)).1

theorem Sound.position_le {v : Visit} (hv : c.contains v = true) : v.position ≤ c.types.size := by
  obtain ⟨d, hd, -⟩ := (Option.any_eq_true _ _).1 hv
  have hlt := (Array.getElem?_eq_some_iff.1 hd).1
  have := hc.size
  omega

theorem freeBefore_yields {v : Visit} (hv : c.contains v = true) :
    Yields (c.freeBefore v) fun l => ∀ u ∈ l, c.contains u = true := by
  refine (Backlinks.row_yields hc.index.links.free (hc.has hv)).bind fun l _ => .ok fun u hu => ?_
  exact (List.mem_filter.1 hu).2

theorem scanSources_yields {v : Visit} (hv : c.contains v = true) :
    Yields (c.scanSources v) fun _ => True := by
  unfold scanSources
  refine .ite (fun _ => .ok trivial) fun hpos => ?_
  have hlt : v.position - 1 < c.types.size := by
    have := hc.position_le hv
    omega
  have htoken : Yields (c.tokenBefore v.position) fun _ => True := by
    unfold tokenBefore
    rw [Array.getElem?_eq_getElem hlt]
    exact .ok trivial
  exact htoken.bind fun _ _ => (Backlinks.row_yields hc.index.links.scan (hc.has hv)).bind
    fun _ _ => .ok trivial

omit hc in
theorem contains_of_mem_callBefore {v u : Visit} {caller stop : Int}
    (hu : u ∈ c.callBefore v caller stop) : c.contains u = true := by
  obtain ⟨j, -, -, hbefore, hinner, rfl | rfl⟩ := mem_callBefore.1 hu
  · exact hbefore
  · exact hinner

theorem before_yields {v : Visit} (hv : c.contains v = true) :
    Yields (c.before v) fun l => ∀ u ∈ l, c.contains u = true := by
  refine (freeBefore_yields hc hv).bind fun free hfree => (scanSources_yields hc hv).bind
    fun scanned _ => (Backlinks.row_yields hc.index.links.call (hc.has hv)).bind fun row hrow =>
      (Yields.mapM_all (R := fun l => ∀ u ∈ l, c.contains u = true) fun e he => ?_).bind
        fun calls hcalls => .ok fun u hu => ?_
  · exact (ChartIndex.stopOf_yields hc.index (hc.index.links.callees row hrow e he)).bind
      fun stop _ => .ok fun u hu => contains_of_mem_callBefore hu
  · obtain hu | hu := List.mem_append.1 hu
    · obtain hu | hu := List.mem_append.1 hu
      · exact hfree u hu
      · exact (List.mem_filter.1 hu).2
    · obtain ⟨l, hl, hu⟩ := List.mem_flatten.1 hu
      exact hcalls l hl u hu

theorem universe_before : Search.Universe c.before c.visits := fun v hv w hw => by
  obtain ⟨l, hl, hw⟩ := hw
  exact mem_visits_iff.2 ((before_yields hc (mem_visits_iff.1 hv)).of_eq hl w hw)

/-- What is walked back from some seeds: the loop takes the members of a set, so each once, and looks
for the signal to stop whenever it takes one. -/
structure WalksBack (c : Chart) (seeds : List Visit) (u : OrderedSet Visit) : Prop where
  loop : Search.Descends c.before seeds u.toList
  within : ∀ v ∈ u.toList, c.contains v = true
  result : (c.useful seeds).result = .ok u
  checks : (c.useful seeds).checks = u.size

section Seeds

variable {seeds : List Visit} (hseeds : ∀ v ∈ seeds, c.contains v = true)
include hseeds

/-- The walk back is the loop that goes on until no visit is left to walk back from. -/
theorem descends_walkBack : Search.Descends c.before seeds (c.walkBack seeds) := by
  have hvisits : ∀ v ∈ seeds, v ∈ c.visits := fun v hv => mem_visits_iff.2 (hseeds v hv)
  obtain ⟨taken, hloop, hlength⟩ := Search.exists_descends (fun v hv => by
    obtain ⟨l, hl, hin⟩ := before_yields hc (mem_visits_iff.1 hv)
    exact ⟨l, hl, fun w hw => mem_visits_iff.2 (hin w hw)⟩) hvisits
  obtain ⟨marked, h⟩ := id hloop
  have hagree : ∀ {v l}, c.before v = .ok l → c.failsBefore v = false ∧
      (.ok (c.backs v) : Except Empty (List Visit)) = .ok l := fun {v l} hl => by
    unfold failsBefore backs
    rw [hl]
    exact ⟨rfl, rfl⟩
  rw [length_visits] at hlength
  have hbound : taken.length ≤ seeds.length + c.itemCount + 1 := by omega
  have hsame := Search.descend_eq _ _ hagree h hbound []
  rw [descend_walkBack, List.reverse_nil, List.nil_append] at hsame
  rw [Except.ok.inj hsame]
  exact hloop

/-- No visit is walked back from twice, unless it is given twice. -/
theorem walksBack (hnodup : seeds.Nodup) : c.WalksBack seeds (.ofList (c.walkBack seeds)) := by
  have hloop := descends_walkBack hc hseeds
  obtain ⟨htaken, hall, -⟩ := Search.descends_ok (universe_before hc)
    (fun v hv => mem_visits_iff.2 (hseeds v hv)) hnodup hloop
  have hwithin : ∀ v ∈ c.walkBack seeds, c.contains v = true := fun v hv =>
    mem_visits_iff.1 (hall v hv)
  have hlist := OrderedSet.toList_ofList htaken
  refine ⟨hlist.symm ▸ hloop, hlist.symm ▸ hwithin, ?_, ?_⟩
  · unfold useful
    simp only
    cases hlast : (c.walkBack seeds).getLast? with
    | none => rfl
    | some last =>
      obtain ⟨l, hl, -⟩ := before_yields hc (hwithin last (List.mem_of_getLast? hlast))
      simp only [hl]
      rfl
  · rw [← OrderedSet.length_toList, hlist]
    rfl

end Seeds

/-- The useful visits are found; they are visits of the chart. -/
theorem useful_yields : Yields (c.useful c.seeds).result fun u => c.WalksBack c.seeds u := by
  have h := walksBack hc (fun _ => contains_of_mem_seeds) c.nodup_seeds
  exact .of_ok h.result h

theorem invocation_yields {v : Visit} (hv : c.contains v = true) :
    Yields (c.invocation v) fun i => c.index.grammar.Numbers i.rule := by
  obtain ⟨st, hst⟩ := hc.has hv
  exact exists_bind hst (Yields.ok (hc.index.grammar.numbers_owner hst))

theorem emptyCalls_yields (u : OrderedSet Visit) {v : Visit} (hv : c.contains v = true) :
    Yields (c.emptyCalls u v) fun _ => True := by
  unfold emptyCalls
  refine .ite (fun _ => .ok trivial) fun _ => (invocation_yields hc hv).bind fun caller _ =>
    (hc.index.grammar.outgoing_yields (hc.has hv)).bind fun out hout =>
      (Yields.mapM (R := fun _ _ => True) fun t ht => ?_).bind fun _ _ => .ok trivial
  split
  · rename_i callee hk hrule
    exact (ChartIndex.startOf_yields hc.index
      (hc.index.grammar.numbers_callee (hout t ht) hk hrule)).bind fun _ _ => .ok trivial
  · exact .ok trivial

variable {u : OrderedSet Visit} (hu : ∀ v ∈ u.toList, c.contains v = true)
include hu

theorem groups_yields : Yields (c.groups u) fun _ => True :=
  (Yields.mapM fun v hv => emptyCalls_yields hc u (hu v hv)).bind fun _ _ => .ok trivial

omit hu in
theorem incoming_yields (groups : Option Groups) (counts : Counts) {v : Visit}
    (hv : c.contains v = true) : Yields (c.incoming groups counts v) fun _ => True := by
  have hhas := hc.has hv
  refine (invocation_yields hc hv).bind fun caller hcaller =>
    (ChartIndex.startOf_yields hc.index hcaller).bind fun start _ =>
      (Backlinks.row_yields hc.index.links.free hhas).bind fun sources _ =>
        (scanSources_yields hc hv).bind fun scanned _ =>
          (Backlinks.row_yields hc.index.links.call hhas).bind fun row hrow =>
            (Yields.mapM (R := fun _ _ => True) fun e he => ?_).bind fun _ _ => .ok trivial
  exact (ChartIndex.stopOf_yields hc.index (hc.index.links.callees row hrow e he)).bind
    fun _ _ => .ok trivial

theorem counts_yields (groups : Option Groups) : Yields (c.counts groups u).result fun _ => True := by
  obtain ⟨passes, m, hm⟩ := exists_countsTo (g := groups) fun v hv m =>
    (incoming_yields hc groups m (hu v hv)).result
  exact .of_ok hm.result trivial

end Chart

end RuleNetwork
