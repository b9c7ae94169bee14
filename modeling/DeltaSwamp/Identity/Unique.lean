import DeltaSwamp.Identity.Log

/-!
# Generated identity values never repeat

What each step keeps of the reservations, the cursors and the values handed
out, and what a whole run has handed out.
-/

namespace DeltaSwamp.Identity

open Progression List

section
variable {int : IntOf} {process : Nat → Int → Nat} {schema : Schema} {plans : List Reservation}
  {heap : List Object} {registry : Registry}

theorem Cursors.none : Cursors process [] [] [] where
  placed := by simp
  origins := nodup_nil
  sound := by simp
  complete := by simp

variable {o : Object}

theorem Cursors.plan_lt (h : Cursors process plans heap registry) (ho : o ∈ heap) :
    o.plan < plans.length := by
  obtain ⟨r, block, hplaced⟩ := h.placed o ho
  exact (List.getElem?_eq_some_iff.mp hplaced.plan).1

theorem Cursors.plan (h : Cursors process plans heap registry) (r : Reservation) :
    Cursors process (plans ++ [r]) heap registry := by
  refine ⟨?_, h.origins, h.sound, ?_⟩
  · intro o ho
    obtain ⟨r', block, hplaced⟩ := h.placed o ho
    exact ⟨r', block, hplaced.mono [r]⟩
  · intro o ho r' hr' hslots
    rw [List.getElem?_append_left (h.plan_lt ho)] at hr'
    exact h.complete o ho r' hr' hslots

theorem Cursors.append (h : Cursors process plans heap registry) {r : Reservation}
    (hnodup : (r.blocks.map Prod.fst).Nodup) (hcount : ∀ b ∈ r.blocks, 0 < b.2.count)
    (hslots : r.slots = Option.none) :
    Cursors process (plans ++ [r]) (heap ++ openBlocks plans.length r.blocks) registry := by
  have hplan := h.plan r
  have hnew : ∀ o ∈ openBlocks plans.length r.blocks, ∃ b ∈ r.blocks,
      o = ⟨plans.length, 0, b.1, b.2, 0⟩ := by
    intro o ho
    obtain ⟨b, hb, rfl⟩ := mem_map.mp ho
    exact ⟨b, hb, rfl⟩
  have hget : (plans ++ [r])[plans.length]? = some r := by simp
  constructor
  · intro o ho
    rcases mem_append.mp ho with ho | ho
    · exact hplan.placed o ho
    · obtain ⟨b, hb, rfl⟩ := hnew o ho
      refine ⟨r, b.2, hget, hb, ?_, le_refl 0, le_of_lt (hcount b hb)⟩
      simp [hslots]
  · rw [map_append]
    refine nodup_append'.mpr ⟨h.origins, ?_, ?_⟩
    · have horigins : (openBlocks plans.length r.blocks).map Object.origin =
          (r.blocks.map Prod.fst).map fun c => (plans.length, 0, c) := by
        simp [openBlocks, Object.origin, map_map, Function.comp_def]
      rw [horigins]
      refine hnodup.map fun c c' hc => ?_
      simpa using hc
    · intro origin hold hadded
      obtain ⟨o, ho, rfl⟩ := mem_map.mp hold
      obtain ⟨o', ho', heq⟩ := mem_map.mp hadded
      obtain ⟨b, hb, rfl⟩ := hnew o' ho'
      have hplans : plans.length = o.plan := congrArg Prod.fst heq
      exact absurd (h.plan_lt ho) (by omega)
  · intro p plan task column ref hlookup
    obtain ⟨o, ho, horigin⟩ := h.sound p plan task column ref hlookup
    exact ⟨o, getElem?_append_of_some ho _, horigin⟩
  · intro o ho r' hr' hsome
    rcases mem_append.mp ho with ho | ho
    · exact hplan.complete o ho r' hr' hsome
    · obtain ⟨b, hb, rfl⟩ := hnew o ho
      rw [hget] at hr'
      cases hr'
      simp [hslots] at hsome

theorem Cursors.draw (h : Cursors process plans heap registry) {ref : Nat}
    (ho : heap[ref]? = some o) {used : Int} (hle : o.cursor.used ≤ used)
    (hroom : used ≤ o.cursor.block.count) :
    Cursors process plans (heap.set ref { o with cursor := { o.cursor with used := used } })
      registry := by
  obtain ⟨hlt, hget⟩ := List.getElem?_eq_some_iff.mp ho
  have hmem : o ∈ heap := mem_of_getElem? ho
  constructor
  · intro o' ho'
    rcases mem_or_eq_of_mem_set ho' with ho' | rfl
    · exact h.placed o' ho'
    · obtain ⟨r, block, hplaced⟩ := h.placed o hmem
      have hused := hplaced.used
      exact ⟨r, block, hplaced.plan, hplaced.mem, hplaced.part, by simp only; omega, hroom⟩
  · have hset : heap.set ref o = heap := by
      rw [← hget]
      exact set_getElem_self hlt
    have hsame : (heap.set ref { o with cursor := { o.cursor with used := used } }).map
        Object.origin = (heap.set ref o).map Object.origin := by
      rw [map_set, map_set]
      rfl
    rw [hsame, hset]
    exact h.origins
  · intro p plan task column ref' hlookup
    obtain ⟨o', ho', horigin⟩ := h.sound p plan task column ref' hlookup
    by_cases hne : ref = ref'
    · subst hne
      rw [ho] at ho'
      cases ho'
      exact ⟨_, List.getElem?_set_self hlt, horigin⟩
    · exact ⟨o', (List.getElem?_set_ne hne).trans ho', horigin⟩
  · intro o' ho' r hr hslots
    rcases mem_or_eq_of_mem_set ho' with ho' | rfl
    · exact h.complete o' ho' r hr hslots
    · exact h.complete o hmem r hr hslots

/-- The cursors an object was opened among are still there, in their order. -/
structure Opens (w w' : World) : Prop where
  schema : w'.schema = w.schema
  plans : w'.plans = w.plans
  handed : w'.handed = w.handed
  heap : ∃ more, w'.heap = w.heap ++ more

theorem Opens.refl (w : World) : Opens w w := ⟨rfl, rfl, rfl, [], by simp⟩

theorem Opens.trans {w₁ w₂ w₃ : World} (h : Opens w₁ w₂) (h' : Opens w₂ w₃) : Opens w₁ w₃ := by
  obtain ⟨more, hmore⟩ := h.heap
  obtain ⟨more', hmore'⟩ := h'.heap
  refine ⟨h'.schema.trans h.schema, h'.plans.trans h.plans, h'.handed.trans h.handed, ?_⟩
  exact ⟨more ++ more', by rw [hmore', hmore, append_assoc]⟩

theorem opens_newCursor (p plan : Nat) (task : Int) (name : String) (part : IdentityBlock)
    (w : World) : Opens w (newCursor p plan task name part w) :=
  ⟨rfl, rfl, rfl, _, rfl⟩

section
variable {w : World} {plan : Nat} {task slots : Int} {name : String} {r : Reservation}
  {block part : IdentityBlock}

theorem Cursors.newCursor (h : Cursors process w.plans w.heap w.registry)
    (hplan : w.plans[plan]? = some r) (hslots : r.slots = some slots)
    (hmem : (name, block) ∈ r.blocks) (hpart : block.slot task slots = .ok part)
    (hcount : 0 ≤ part.count)
    (hnone : w.registry.lookup (process plan task, plan, task, name) = Option.none) :
    Cursors process w.plans (newCursor (process plan task) plan task name part w).heap
      (newCursor (process plan task) plan task name part w).registry := by
  constructor
  · intro o ho
    rcases mem_append.mp ho with ho | ho
    · exact h.placed o ho
    · rw [mem_singleton.mp ho]
      refine ⟨r, block, hplan, hmem, ?_, le_refl 0, hcount⟩
      simpa [hslots] using hpart
  · simp only [Identity.newCursor, map_append, map_singleton]
    refine nodup_append'.mpr ⟨h.origins, nodup_singleton _, ?_⟩
    intro origin hold hnew
    obtain ⟨o, ho, rfl⟩ := mem_map.mp hold
    have horigin : o.plan = plan ∧ o.task = task ∧ o.column = name := by
      simpa [Object.origin] using hnew
    obtain ⟨rfl, rfl, rfl⟩ := horigin
    have hsome := h.complete o ho r hplan (by simp [hslots])
    simp [hnone] at hsome
  · intro p plan' task' column ref hlookup
    simp only [Identity.newCursor, lookup_cons] at hlookup
    split at hlookup
    · rename_i hkey
      cases hlookup
      have hkey := eq_of_beq hkey
      simp only [Prod.mk.injEq] at hkey
      obtain ⟨-, rfl, rfl, rfl⟩ := hkey
      exact ⟨_, List.getElem?_concat_length, rfl⟩
    · obtain ⟨o, ho, horigin⟩ := h.sound p plan' task' column ref hlookup
      exact ⟨o, getElem?_append_of_some ho _, horigin⟩
  · intro o ho r' hr' hsome
    simp only [Identity.newCursor, lookup_cons]
    split
    · rfl
    · rename_i hkey
      rcases mem_append.mp ho with ho | ho
      · exact h.complete o ho r' hr' hsome
      · rw [mem_singleton.mp ho] at hkey
        simp at hkey

theorem Cursors.slotCursor (h : Cursors process w.plans w.heap w.registry)
    (hlog : Log int schema w.plans w.schema) (hplan : w.plans[plan]? = some r)
    (hslots : r.slots = some slots) (hmem : (name, block) ∈ r.blocks)
    (hpart : block.slot task slots = .ok part) :
    Cursors process w.plans (slotCursor (process plan task) plan task name part w).heap
        (slotCursor (process plan task) plan task name part w).registry ∧
      Opens w (slotCursor (process plan task) plan task name part w) := by
  unfold Identity.slotCursor
  cases hlookup : w.registry.lookup (process plan task, plan, task, name) with
  | none =>
    obtain ⟨spec, after, -, -, hres⟩ :=
      hlog.reserves r (mem_of_getElem? hplan) name block hmem
    obtain ⟨hlow, hhigh, hcount, -, -⟩ := slot_ok hpart
    have hsize : 0 ≤ part.count := by
      rw [hcount]
      exact Int.ediv_nonneg (le_of_lt hres.count) (by omega)
    exact ⟨h.newCursor hplan hslots hmem hpart hsize hlookup, opens_newCursor _ _ _ _ _ _⟩
  | some ref =>
    obtain ⟨o, ho, horigin⟩ := h.sound _ _ _ _ _ hlookup
    simp only [Object.origin, Prod.mk.injEq] at horigin
    obtain ⟨rfl, rfl, rfl⟩ := horigin
    obtain ⟨r', block', hplaced⟩ := h.placed o (mem_of_getElem? ho)
    have hr : r' = r := Option.some_inj.mp (hplaced.plan.symm.trans hplan)
    subst hr
    have hb : block' = block := hlog.block_eq hplan hplaced.mem hmem
    subst hb
    have hsame := hplaced.part
    rw [hslots] at hsame
    have hcursor : o.cursor.block = part := by
      simpa [hpart, eq_comm] using hsame
    rw [Option.bind_some, ho]
    simp only [hcursor, if_true]
    exact ⟨h, Opens.refl w⟩

theorem Cursors.identitySlot (h : Cursors process w.plans w.heap w.registry)
    (hlog : Log int schema w.plans w.schema) (hplan : w.plans[plan]? = some r)
    (hslots : r.slots = some slots) (task : Int) (blocks : Blocks)
    (hsub : ∀ b ∈ blocks, b ∈ r.blocks) :
    Cursors process w.plans (identitySlot (process plan task) plan task slots blocks w).heap
        (identitySlot (process plan task) plan task slots blocks w).registry ∧
      Opens w (identitySlot (process plan task) plan task slots blocks w) := by
  induction blocks generalizing w with
  | nil => exact ⟨h, Opens.refl w⟩
  | cons b rest ih =>
    obtain ⟨name, block⟩ := b
    simp only [Identity.identitySlot]
    cases hpart : block.slot task slots with
    | error e => exact ⟨h, Opens.refl w⟩
    | ok part =>
      have hmem := hsub (name, block) mem_cons_self
      obtain ⟨hcursors, hopens⟩ := h.slotCursor hlog hplan hslots hmem hpart
      have hrest := fun b hb => hsub b (mem_cons_of_mem _ hb)
      rw [← hopens.plans] at hcursors hplan
      rw [← hopens.plans, ← hopens.schema] at hlog
      obtain ⟨hcursors', hopens'⟩ := ih hcursors hlog hplan hrest
      rw [hopens.plans] at hcursors'
      exact ⟨hcursors', hopens.trans hopens'⟩

end

/-- `g` is a term its cursor has used. -/
structure Drawn (heap : List Object) (g : Handed) (o : Object) (k : Int) : Prop where
  mem : o ∈ heap
  plan : o.plan = g.plan
  column : o.column = g.column
  step : o.cursor.block.step ≠ 0
  nonneg : 0 ≤ k
  used : k < o.cursor.used
  value : g.value = o.cursor.block.term k

/-- The state of a table, its processes and the rows written to it. -/
structure Good (int : IntOf) (process : Nat → Int → Nat) (schema : Schema) (w : World) :
    Prop where
  log : Log int schema w.plans w.schema
  cursors : Cursors process w.plans w.heap w.registry
  drawn : ∀ g ∈ w.handed, ∃ o k, Drawn w.heap g o k
  nodup : ∀ column, (w.generated column).Nodup

theorem Good.start (int : IntOf) (process : Nat → Int → Nat) (schema : Schema) :
    Good int process schema (World.start schema) where
  log := .start schema
  cursors := .none
  drawn := by simp [World.start]
  nodup := by simp [World.start, World.generated]

variable {w : World}

variable {k : Int}

theorem Drawn.mono {g : Handed} (h : Drawn heap g o k) (more : List Object) :
    Drawn (heap ++ more) g o k :=
  { h with mem := mem_append_left more h.mem }

theorem Good.opens {w' : World} (h : Good int process schema w) (hopens : Opens w w')
    (hcursors : Cursors process w.plans w'.heap w'.registry) : Good int process schema w' := by
  obtain ⟨more, hmore⟩ := hopens.heap
  refine ⟨?_, hopens.plans ▸ hcursors, ?_, ?_⟩
  · rw [hopens.plans, hopens.schema]
    exact h.log
  · intro g hg
    rw [hopens.handed] at hg
    obtain ⟨o, k, hdrawn⟩ := h.drawn g hg
    exact ⟨o, k, hmore ▸ hdrawn.mono more⟩
  · intro column
    have hsame : w'.generated column = w.generated column := by
      simp only [World.generated, hopens.handed]
    rw [hsame]
    exact h.nodup column

theorem Good.reserve (h : Good int process schema w) (counts : Counts) (slots : Option Int) :
    Good int process schema (w.reserve int counts slots) := by
  unfold World.reserve
  split
  · exact h
  · rename_i after blocks hreserve
    have hlog := h.log.reserve hreserve slots
    cases slots with
    | some slots => exact ⟨hlog, h.cursors.plan _, h.drawn, h.nodup⟩
    | none =>
      refine ⟨hlog, ?_, ?_, h.nodup⟩
      · refine h.cursors.append (reserveIdentity_nodup int hreserve) ?_ rfl
        intro b hb
        obtain ⟨spec, spec', -, -, hres⟩ := (reserveIdentity_spec int hreserve b.1).1 b.2 hb
        exact hres.count
      · intro g hg
        obtain ⟨o, k, hdrawn⟩ := h.drawn g hg
        exact ⟨o, k, hdrawn.mono _⟩

theorem Good.write (h : Good int process schema w) (plan : Nat) (task : Int) :
    Good int process schema (w.write process plan task) := by
  unfold World.write
  split
  · exact h
  · rename_i r hplan
    split
    · exact h
    · rename_i slots hslots
      obtain ⟨hcursors, hopens⟩ :=
        h.cursors.identitySlot h.log hplan hslots task r.blocks fun _ hb => hb
      exact h.opens hopens hcursors

theorem Drawn.draw {g : Handed} {o' : Object} (h : Drawn heap g o' k) {ref : Nat}
    (ho : heap[ref]? = some o) (taken : Nat) :
    ∃ o'', Drawn (heap.set ref
      { o with cursor := { o.cursor with used := o.cursor.used + taken } }) g o'' k := by
  obtain ⟨hlt, -⟩ := List.getElem?_eq_some_iff.mp ho
  by_cases hsame : o' = o
  · subst hsame
    refine ⟨_, mem_set hlt _, h.plan, h.column, h.step, h.nonneg, ?_, h.value⟩
    have hused := h.used
    simp only
    omega
  · refine ⟨o', { h with mem := ?_ }⟩
    obtain ⟨i, hi⟩ := mem_iff_getElem?.mp h.mem
    have hne : ref ≠ i := by
      rintro rfl
      rw [ho] at hi
      cases hi
      exact hsame rfl
    exact mem_iff_getElem?.mpr ⟨i, (List.getElem?_set_ne hne).trans hi⟩

theorem Good.fresh (h : Good int process schema w) (ho : o ∈ w.heap)
    (hstep : o.cursor.block.step ≠ 0) {g : Handed} (hg : g ∈ w.handed)
    (hcolumn : g.column = o.column) (hused : o.cursor.used ≤ k) (hroom : k < o.cursor.block.count) :
    g.value ≠ o.cursor.block.term k := by
  obtain ⟨o', k', hdrawn⟩ := h.drawn g hg
  rw [hdrawn.value]
  have hk' := hdrawn.used
  obtain ⟨r, block, hplaced⟩ := h.cursors.placed o ho
  obtain ⟨r', block', hplaced'⟩ := h.cursors.placed o' hdrawn.mem
  by_cases hsame : o' = o
  · subst hsame
    intro hterm
    have hindex := term_inj hstep hterm
    omega
  · have horigin : o'.origin ≠ o.origin := fun heq =>
      hsame (inj_on_of_nodup_map h.cursors.origins hdrawn.mem ho heq)
    have hnonneg := hplaced.used
    have hfits := hplaced'.room
    exact h.log.separate hplaced' hplaced (hdrawn.column.trans hcolumn) horigin hdrawn.step hstep
      hdrawn.nonneg (by omega) (by omega) hroom

/-- A call for values keeps the invariant. -/
theorem Good.values (h : Good int process schema w) (ref rows : Nat) :
    Good int process schema (w.values ref rows) := by
  unfold World.values
  split
  · exact h
  · rename_i o ho
    have hmem : o ∈ w.heap := mem_of_getElem? ho
    obtain ⟨r, block, hplaced⟩ := h.cursors.placed o hmem
    obtain ⟨taken, hroom, hcursor, hvalues⟩ :=
      identityValues_spec o.cursor o.column rows hplaced.room
    obtain ⟨hlt, -⟩ := List.getElem?_eq_some_iff.mp ho
    have hterm : ∀ v ∈ (identityValues o.cursor o.column rows).1.getD [],
        o.cursor.block.step ≠ 0 ∧ ∃ k : Nat, k < taken ∧
          v = o.cursor.block.term (o.cursor.used + k) := by
      intro v hv
      rw [hvalues] at hv
      split_ifs at hv with hstep
      · simp at hv
      · obtain ⟨k, hk, rfl⟩ := mem_map.mp hv
        exact ⟨hstep, k, mem_range.mp hk, rfl⟩
    simp only [hcursor]
    refine ⟨h.log, h.cursors.draw ho (by omega) hroom, ?_, ?_⟩
    · intro g hg
      rcases mem_append.mp hg with hg | hg
      · obtain ⟨o', k, hdrawn⟩ := h.drawn g hg
        obtain ⟨o'', hdrawn'⟩ := hdrawn.draw ho taken
        exact ⟨o'', k, hdrawn'⟩
      · obtain ⟨v, hv, rfl⟩ := mem_map.mp hg
        obtain ⟨hstep, k, hk, rfl⟩ := hterm v hv
        have hused := hplaced.used
        refine ⟨_, o.cursor.used + k, mem_set hlt _, rfl, rfl, hstep, by omega, ?_, rfl⟩
        simp only
        omega
    · intro column
      have hsplit : World.generated { w with
            heap := w.heap.set ref { o with
              cursor := { o.cursor with used := o.cursor.used + taken } }
            handed := w.handed ++ ((identityValues o.cursor o.column rows).1.getD []).map
              fun v => ⟨o.plan, o.column, v⟩ } column =
          w.generated column ++
            if o.column = column then (identityValues o.cursor o.column rows).1.getD []
            else [] := by
        simp only [World.generated, filter_append, map_append]
        congr 1
        split_ifs with hcolumn
        · rw [filter_eq_self.mpr (by simp [hcolumn]), map_map]
          exact map_id'' (fun _ => rfl) _
        · rw [filter_eq_nil_iff.mpr (by simp [hcolumn]), map_nil]
      rw [hsplit]
      split_ifs with hcolumn
      · refine nodup_append'.mpr ⟨h.nodup column, ?_, ?_⟩
        · rw [hvalues]
          split_ifs with hstep
          · exact nodup_nil
          · have hterms := nodup_terms hstep (o.cursor.block.term o.cursor.used) taken
            refine cast (congrArg List.Nodup (map_congr_left fun k _ => ?_)) hterms
            simp only [IdentityBlock.term]
            ring
        · intro v hold hnew
          obtain ⟨g, hg, rfl⟩ := mem_map.mp hold
          obtain ⟨hg, hgc⟩ := mem_filter.mp hg
          have hgc : g.column = o.column := by simpa [hcolumn] using hgc
          obtain ⟨hstep, k, hk, heq⟩ := hterm _ hnew
          exact h.fresh hmem hstep hg hgc (by omega) (by omega) heq
      · rw [append_nil]
        exact h.nodup column

theorem Good.step {w' : World} {e : Event} (h : Good int process schema w)
    (hnext : next int process w e = some w') : Good int process schema w' := by
  cases e <;> (simp only [next, Option.some.injEq] at hnext; subst hnext)
  · exact h.reserve _ _
  · exact h.reserve _ _
  · exact h.write _ _
  · exact h.values _ _

theorem Reached.good (h : Reached int process schema w) : Good int process schema w :=
  Run.invariant (P := Good int process schema) (.start int process schema)
    (fun _ _ _ hgood _ hnext => hgood.step hnext) h

end

section
variable (int : IntOf) (w : World) (column : String) (spec : IdentitySpec) (g : Handed)

/-- Where a value of `column` stands: after everything generated before its
reservation, and no further than the mark its reservation recorded. -/
structure Generated : Prop where
  recorded : ∃ r mark, w.plans[g.plan]? = some r ∧
    r.after.spec int column = some { spec with highWaterMark := some mark } ∧
    Within spec.step g.value mark
  covered : ∃ mark, w.schema.spec int column = some { spec with highWaterMark := some mark } ∧
    Within spec.step g.value mark
  beyondFound : ∃ r mark, w.plans[g.plan]? = some r ∧
    r.before.spec int column = some { spec with highWaterMark := mark } ∧
    ∀ m ∈ mark, Beyond spec.step m g.value
  beyondMark : ∀ m ∈ spec.highWaterMark, Beyond spec.step m g.value
  beyondEarlier : ∀ g' ∈ w.handed, g'.column = column → g'.plan < g.plan →
    Beyond spec.step g'.value g.value
  fits : int64 g.value

end

section
variable {int : IntOf} {process : Nat → Int → Nat} {schema : Schema} {w : World}

theorem Good.located (h : Good int process schema w) {g : Handed} (hg : g ∈ w.handed)
    {spec : IdentitySpec} (hspec : schema.spec int g.column = some spec) :
    ∃ o r block mark after i, Placed w.plans o r block ∧ o.plan = g.plan ∧ o.column = g.column ∧
      r.before.spec int g.column = some { spec with highWaterMark := mark } ∧
      Advanced int spec g.column r.before ∧
      r.after.spec int g.column = some after ∧
      Reserves { spec with highWaterMark := mark } block after ∧
      0 ≤ i ∧ i < block.count ∧ g.value = block.term i := by
  obtain ⟨o, k, hdrawn⟩ := h.drawn g hg
  obtain ⟨r, block, hplaced⟩ := h.cursors.placed o hdrawn.mem
  have hr := mem_of_getElem? hplaced.plan
  have hadvanced := (h.log.advanced g.column spec hspec).1 r hr
  obtain ⟨mark, hbefore, -, -⟩ := id hadvanced
  obtain ⟨spec₁, after, h₁, hafter, hres⟩ :=
    h.log.reserves r hr g.column block (hdrawn.column ▸ hplaced.mem)
  rw [hbefore] at h₁
  cases h₁
  obtain ⟨hlow, hhigh⟩ :=
    hplaced.index_bounds hdrawn.nonneg (lt_of_lt_of_le hdrawn.used hplaced.room)
  exact ⟨o, r, block, mark, after, o.index k, hplaced, hdrawn.plan, hdrawn.column, hbefore,
    hadvanced, hafter, hres, hlow, hhigh, hdrawn.value.trans (hplaced.term_eq k)⟩

theorem Good.generated (h : Good int process schema w) {g : Handed} (hg : g ∈ w.handed)
    {spec : IdentitySpec} (hspec : schema.spec int g.column = some spec) (hstep : spec.step ≠ 0) :
    Generated int w g.column spec g := by
  obtain ⟨o, r, block, mark, after, i, hplaced, hplan, hcolumn, hbefore, hadvanced, hafter, hres,
    hlow, hhigh, hvalue⟩ := h.located hg hspec
  have hr := mem_of_getElem? hplaced.plan
  have hget : w.plans[g.plan]? = some r := hplan ▸ hplaced.plan
  have hblock : block.step = spec.step := hres.step
  have hmem : (g.column, block) ∈ r.blocks := hcolumn ▸ hplaced.mem
  have hfirst : Within spec.step block.first g.value := by
    rw [hvalue, ← hblock]
    exact block.first_within hlow
  have hlast : Within spec.step g.value block.last := by
    rw [hvalue, ← hblock]
    exact block.within_last hhigh
  have hfound : ∀ m ∈ mark, Beyond spec.step m g.value := fun m hm =>
    (hres.beyond_mark hstep hm).of_within hfirst
  refine ⟨⟨r, block.last, hget, by rw [hafter, hres.after], hlast⟩, ?_,
    ⟨r, mark, hget, hbefore, hfound⟩, ?_, ?_, ?_⟩
  · obtain ⟨spec', m, hcurrent, hm, hsame, hwithin⟩ := h.log.covered r hr g.column block hmem
    obtain ⟨m', hnow, -, -⟩ := (h.log.advanced g.column spec hspec).2
    rw [hcurrent] at hnow
    cases hnow
    simp only at hm
    subst hm
    exact ⟨m, hcurrent, hlast.trans (hblock ▸ hwithin)⟩
  · intro m hm
    obtain ⟨mark', hbefore', -, hmark⟩ := hadvanced
    rw [hbefore] at hbefore'
    cases hbefore'
    obtain ⟨m', hm', hwithin⟩ := hmark m hm
    exact hwithin.beyond (hfound m' hm')
  · intro g' hg' hgc hlt
    obtain ⟨o', r', block', mark', after', i', hplaced', hplan', hcolumn', -, -, -, hres', hlow',
      hhigh', hvalue'⟩ := h.located hg' (hgc ▸ hspec)
    have hblock' : block'.step = spec.step := hres'.step
    have hcolumns : o'.column = o.column := (hcolumn'.trans hgc).trans hcolumn.symm
    have hbeyond := (h.log.beyond hplaced' hplaced hcolumns (by omega) (hblock' ▸ hstep) hhigh'
      hlow).2
    rw [hvalue, hvalue', ← hblock']
    exact hbeyond
  · obtain ⟨hmin, hmax⟩ := between hstep hfirst hlast
    obtain ⟨hf₁, hf₂⟩ := hres.firstFits
    obtain ⟨hl₁, hl₂⟩ := hres.lastFits
    exact ⟨le_trans (le_min hf₁ hl₁) hmin, le_trans hmax (max_le hf₂ hl₂)⟩

theorem Good.congruent (h : Good int process schema w) {g : Handed} (hg : g ∈ w.handed)
    {spec : IdentitySpec} (hspec : schema.spec int g.column = some spec) :
    spec.step ∣ g.value - spec.firstFree := by
  obtain ⟨o, r, block, mark, after, i, hplaced, -, -, hbefore, hadvanced, -, hres, -, -, hvalue⟩ :=
    h.located hg hspec
  obtain ⟨mark', hbefore', hdvd, -⟩ := hadvanced
  rw [hbefore] at hbefore'
  cases hbefore'
  have hsum : g.value - spec.firstFree =
      (IdentitySpec.firstFree { spec with highWaterMark := mark } - spec.firstFree) +
        i * spec.step := by
    have hstep : block.step = spec.step := hres.step
    rw [hvalue, IdentityBlock.term, hres.first, hstep]
    ring
  rw [hsum]
  exact dvd_add hdvd (Dvd.intro_left _ rfl)

/-- An identity column's values never repeat, whatever reservations follow one
another, tasks write and writers share a cursor. Each is beyond every value
generated before its reservation, within the mark it recorded and in range, and
is of the start's sequence where the mark the column began with was. -/
theorem generated_unique (h : Reached int process schema w) {column : String}
    {spec : IdentitySpec} (hspec : schema.spec int column = some spec) (hstep : spec.step ≠ 0) :
    (w.generated column).Nodup ∧
    ∀ g ∈ w.handed, g.column = column →
      Generated int w column spec g ∧
      ((∀ m ∈ spec.highWaterMark, spec.step ∣ m - spec.start) →
        spec.step ∣ g.value - spec.start) := by
  have hgood := h.good
  refine ⟨hgood.nodup column, ?_⟩
  rintro g hg rfl
  refine ⟨hgood.generated hg hspec hstep, fun hmark => ?_⟩
  have hvalue := hgood.congruent hg hspec
  have hfree : spec.step ∣ spec.firstFree - spec.start := by
    unfold IdentitySpec.firstFree
    split
    · simp
    · rename_i m hm
      have hsum : m + spec.step - spec.start = (m - spec.start) + spec.step := by ring
      rw [hsum]
      exact dvd_add (hmark m hm) (dvd_refl _)
  have hsum : g.value - spec.start =
      (g.value - spec.firstFree) + (spec.firstFree - spec.start) := by ring
  rw [hsum]
  exact dvd_add hvalue hfree

end

/-- `int()` on a JSON integer. -/
def intOfInt : IntOf where
  read
    | .int n => some n
    | _ => none
  read_int := fun _ => rfl

/-- A table with one identity column. -/
def oneColumn (metadata : Fields) : Schema := ⟨[⟨"id", metadata⟩], by simp⟩

def countdown : Schema := oneColumn [(identityStart, .int 5), (identityStep, .int (-3))]

/-- A local append, then a distributed write whose two tasks share a process:
one writes twice, and is refused when its slot runs out. -/
def countdownRun : List Event :=
  [.append [("id", 2)], .values 0 2, .plan [("id", 5)] 2, .write 1 1, .write 1 0, .values 1 1,
    .write 1 1, .values 2 2, .values 1 2, .values 1 1]

def countdownEnd : Option World := replay (next intOfInt fun _ _ => 0) (fun _ _ => True)
  (World.start countdown) countdownRun

theorem generated_unique_countdown :
    ∃ w, countdownEnd = some w ∧ w.generated "id" = [5, 2, -7, -1, -4, -10] ∧
      (w.generated "id").Nodup ∧
      ∀ g ∈ w.handed, g.column = "id" →
        Generated intOfInt w "id" ⟨"id", 5, -3, none⟩ g ∧
        ((∀ m ∈ (none : Option Int), -3 ∣ m - 5) → -3 ∣ g.value - 5) := by
  have hvalues : countdownEnd.map (World.generated · "id") = some [5, 2, -7, -1, -4, -10] := by
    decide +kernel
  obtain ⟨w, hw, hgenerated⟩ := Option.map_eq_some_iff.mp hvalues
  have hspec : countdown.spec intOfInt "id" = some ⟨"id", 5, -3, none⟩ := by decide +kernel
  exact ⟨w, hw, hgenerated, generated_unique (Run.of_replay hw) hspec (by decide)⟩

/-- A column whose mark is not of its start's sequence. -/
def offMark : Schema := oneColumn
  [(identityStart, .int 1), (identityStep, .int 10), (identityHwm, .int 5)]

def offMarkEnd : Option World := replay (next intOfInt fun _ _ => 0) (fun _ _ => True)
  (World.start offMark) [.append [("id", 1)], .values 0 1]

/-- Values go on from the mark: after mark 5, counting from 1 by tens, comes 15. -/
theorem offMark_not_congruent :
    ¬ ∀ (int : IntOf) (process : Nat → Int → Nat) (schema : Schema) (w : World),
      Reached int process schema w → ∀ (column : String) (spec : IdentitySpec),
        schema.spec int column = some spec → spec.step ≠ 0 →
          ∀ g ∈ w.handed, g.column = column → spec.step ∣ g.value - spec.start := by
  intro hall
  have hvalues : offMarkEnd.map World.handed = some [⟨0, "id", 15⟩] := by decide +kernel
  obtain ⟨w, hw, hhanded⟩ := Option.map_eq_some_iff.mp hvalues
  have hspec : offMark.spec intOfInt "id" = some ⟨"id", 1, 10, some 5⟩ := by decide +kernel
  have hmem : (⟨0, "id", 15⟩ : Handed) ∈ w.handed := by simp [hhanded]
  have hdvd := hall intOfInt _ offMark w (Run.of_replay hw) "id" _ hspec (by decide) _ hmem rfl
  revert hdvd
  decide

end DeltaSwamp.Identity
