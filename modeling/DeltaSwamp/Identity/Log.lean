import DeltaSwamp.Identity.Reserve

/-!
# Reservations of identity values

The blocks a table's reservations take follow one another in the direction of
their column's step, each after the mark it found and within the mark it left.
-/

namespace DeltaSwamp.Identity

open Progression List

section
variable (int : IntOf)

/-- `column` as `spec` declares it, its mark moved on by whole steps. -/
def Advanced (spec : IdentitySpec) (column : String) (schema : Schema) : Prop :=
  ∃ mark, schema.spec int column = some { spec with highWaterMark := mark } ∧
    spec.step ∣ IdentitySpec.firstFree { spec with highWaterMark := mark } - spec.firstFree ∧
    ∀ m ∈ spec.highWaterMark, ∃ m' ∈ mark, Within spec.step m m'

/-- The mark of `column` covers `block`. -/
def Covers (schema : Schema) (column : String) (block : IdentityBlock) : Prop :=
  ∃ spec mark, schema.spec int column = some spec ∧ spec.highWaterMark = some mark ∧
    spec.step = block.step ∧ Within block.step block.last mark

/-- The reservations of a table, from `schema` to `current`. -/
structure Log (schema : Schema) (plans : List Reservation) (current : Schema) : Prop where
  nodup : ∀ r ∈ plans, (r.blocks.map Prod.fst).Nodup
  reserves : ∀ r ∈ plans, ∀ column block, (column, block) ∈ r.blocks →
    ∃ spec after, r.before.spec int column = some spec ∧ r.after.spec int column = some after ∧
      Reserves spec block after
  advanced : ∀ column spec, schema.spec int column = some spec →
    (∀ r ∈ plans, Advanced int spec column r.before) ∧ Advanced int spec column current
  covered : ∀ r ∈ plans, ∀ column block, (column, block) ∈ r.blocks →
    Covers int current column block
  ordered : plans.Pairwise fun p q => ∀ column b b', (column, b) ∈ p.blocks →
    (column, b') ∈ q.blocks → b'.step = b.step ∧ (b.step ≠ 0 → Beyond b.step b.last b'.first)

theorem IdentityBlock.last_add_step (block : IdentityBlock) :
    block.last + block.step = block.first + block.count * block.step := by
  simp only [IdentityBlock.last, IdentityBlock.term]
  ring

theorem IdentityBlock.within_last (block : IdentityBlock) {k : Int} (h : k < block.count) :
    Within block.step (block.term k) block.last :=
  within_term (by omega)

theorem IdentityBlock.first_within (block : IdentityBlock) {k : Int} (h : 0 ≤ k) :
    Within block.step block.first (block.term k) := by
  have hzero : Within block.step (block.first + 0 * block.step) (block.term k) := within_term h
  rwa [zero_mul, add_zero] at hzero

variable {int}

variable {column : String} {spec : IdentitySpec}

theorem Advanced.refl {schema : Schema} (h : schema.spec int column = some spec) :
    Advanced int spec column schema := by
  refine ⟨spec.highWaterMark, h, by simp, ?_⟩
  intro m hm
  exact ⟨m, hm, Within.refl _ _⟩

theorem Reserves.mark_within {after : IdentitySpec} {block : IdentityBlock}
    (h : Reserves spec block after) {m : Int} (hm : spec.highWaterMark = some m) :
    Within spec.step m block.last := by
  have hfirst : block.first = m + spec.step := by rw [h.first, IdentitySpec.firstFree, hm]
  have hstep : Within spec.step m block.first := by
    have hterm : Within spec.step (m + 0 * spec.step) (m + 1 * spec.step) := within_term (by omega)
    rwa [zero_mul, add_zero, one_mul, ← hfirst] at hterm
  have hlast : Within spec.step block.first block.last := by
    rw [← h.step]
    exact block.first_within (by have := h.count; omega)
  exact hstep.trans hlast

theorem Reserves.beyond_mark {after : IdentitySpec} {block : IdentityBlock}
    (h : Reserves spec block after) (hstep : spec.step ≠ 0) {m : Int}
    (hm : spec.highWaterMark = some m) : Beyond spec.step m block.first := by
  rw [h.first, IdentitySpec.firstFree, hm]
  exact beyond_step hstep m

variable {after : Schema} {counts : Counts} {blocks : Blocks}

theorem Advanced.reserve {current : Schema} (h : Advanced int spec column current)
    (hreserve : reserveIdentity int current counts = .ok (after, blocks)) :
    Advanced int spec column after := by
  obtain ⟨hblock, hkept⟩ := reserveIdentity_spec int hreserve column
  obtain ⟨mark, hspec, hdvd, hmark⟩ := h
  by_cases hmem : ∃ block, (column, block) ∈ blocks
  · obtain ⟨block, hmem⟩ := hmem
    obtain ⟨spec₁, spec₂, h₁, h₂, hres⟩ := hblock block hmem
    rw [hspec] at h₁
    cases h₁
    refine ⟨some block.last, by rw [h₂, hres.after], ?_, ?_⟩
    · have hfirst := hres.first
      have hnext := block.last_add_step
      rw [hres.step] at hnext
      simp only at hnext
      have hsum : IdentitySpec.firstFree { spec with highWaterMark := some block.last } -
          spec.firstFree = (IdentitySpec.firstFree { spec with highWaterMark := mark } -
            spec.firstFree) + block.count * spec.step := by
        rw [← hfirst]
        simp only [IdentitySpec.firstFree, hnext]
        ring
      rw [hsum]
      exact dvd_add hdvd (Dvd.intro_left _ rfl)
    · intro m hm
      obtain ⟨m', hm', hwithin⟩ := hmark m hm
      exact ⟨block.last, rfl, hwithin.trans (hres.mark_within hm')⟩
  · push Not at hmem
    exact ⟨mark, (hkept hmem).trans hspec, hdvd, hmark⟩

theorem Covers.reserve {block : IdentityBlock} {current : Schema}
    (h : Covers int current column block)
    (hreserve : reserveIdentity int current counts = .ok (after, blocks)) :
    Covers int after column block := by
  obtain ⟨hblock, hkept⟩ := reserveIdentity_spec int hreserve column
  obtain ⟨spec, mark, hspec, hmark, hstep, hwithin⟩ := h
  by_cases hmem : ∃ b, (column, b) ∈ blocks
  · obtain ⟨b, hmem⟩ := hmem
    obtain ⟨spec₁, spec₂, h₁, h₂, hres⟩ := hblock b hmem
    rw [hspec] at h₁
    cases h₁
    refine ⟨_, b.last, h₂, by rw [hres.after], by rw [hres.after]; exact hstep, ?_⟩
    rw [← hstep]
    exact (hstep ▸ hwithin).trans (hres.mark_within hmark)
  · push Not at hmem
    exact ⟨spec, mark, (hkept hmem).trans hspec, hmark, hstep, hwithin⟩

theorem Log.start (schema : Schema) : Log int schema [] schema where
  nodup := by simp
  reserves := by simp
  advanced := fun _ _ hspec => ⟨by simp, .refl hspec⟩
  covered := by simp
  ordered := List.Pairwise.nil

/-- One more reservation keeps the invariant of the log. -/
theorem Log.reserve {schema current : Schema} {plans : List Reservation}
    (h : Log int schema plans current)
    (hreserve : reserveIdentity int current counts = .ok (after, blocks)) (slots : Option Int) :
    Log int schema (plans ++ [⟨current, after, blocks, slots⟩]) after := by
  have hspec := reserveIdentity_spec int hreserve
  constructor
  · intro r hr
    rcases mem_append.mp hr with hr | hr
    · exact h.nodup r hr
    · rw [mem_singleton.mp hr]
      exact reserveIdentity_nodup int hreserve
  · intro r hr column block hblock
    rcases mem_append.mp hr with hr | hr
    · exact h.reserves r hr column block hblock
    · rw [mem_singleton.mp hr] at hblock ⊢
      exact (hspec column).1 block hblock
  · intro column spec hcolumn
    obtain ⟨hplans, hcurrent⟩ := h.advanced column spec hcolumn
    refine ⟨?_, hcurrent.reserve hreserve⟩
    intro r hr
    rcases mem_append.mp hr with hr | hr
    · exact hplans r hr
    · rw [mem_singleton.mp hr]
      exact hcurrent
  · intro r hr column block hblock
    rcases mem_append.mp hr with hr | hr
    · exact (h.covered r hr column block hblock).reserve hreserve
    · rw [mem_singleton.mp hr] at hblock
      obtain ⟨spec, spec', -, hafter, hres⟩ := (hspec column).1 block hblock
      refine ⟨spec', block.last, hafter, by rw [hres.after], ?_, Within.refl _ _⟩
      rw [hres.after, hres.step]
  · refine pairwise_append.mpr ⟨h.ordered, pairwise_singleton _ _, ?_⟩
    intro p hp q hq column b b' hb hb'
    rw [mem_singleton.mp hq] at hb'
    obtain ⟨spec, mark, hcurrent, hmark, hstep, hwithin⟩ := h.covered p hp column b hb
    obtain ⟨spec₁, spec₂, h₁, -, hres⟩ := (hspec column).1 b' hb'
    rw [hcurrent] at h₁
    cases h₁
    refine ⟨hres.step.trans hstep, fun hne => ?_⟩
    have hbeyond := hres.beyond_mark (hstep ▸ hne) hmark
    exact hwithin.beyond (hstep ▸ hbeyond)

end

/-- `o` is over its task's part of a reserved block, and has not run past it. -/
structure Placed (plans : List Reservation) (o : Object) (r : Reservation)
    (block : IdentityBlock) : Prop where
  plan : plans[o.plan]? = some r
  mem : (o.column, block) ∈ r.blocks
  part : match r.slots with
    | none => o.task = 0 ∧ o.cursor.block = block
    | some slots => block.slot o.task slots = .ok o.cursor.block
  used : 0 ≤ o.cursor.used
  room : o.cursor.used ≤ o.cursor.block.count

/-- The cursors of every process: one for each part of a block at most. -/
structure Cursors (process : Nat → Int → Nat) (plans : List Reservation) (heap : List Object)
    (registry : Registry) : Prop where
  placed : ∀ o ∈ heap, ∃ r block, Placed plans o r block
  origins : (heap.map Object.origin).Nodup
  sound : ∀ p plan task column ref, registry.lookup (p, plan, task, column) = some ref →
    ∃ o, heap[ref]? = some o ∧ o.origin = (plan, task, column)
  complete : ∀ o ∈ heap, ∀ r, plans[o.plan]? = some r → r.slots.isSome →
    (registry.lookup (process o.plan o.task, o.plan, o.task, o.column)).isSome

/-- Where in its block the `k`-th value of a cursor is. -/
def Object.index (o : Object) (k : Int) : Int := o.task * o.cursor.block.count + k

section
variable {plans : List Reservation} {o o' : Object} {r : Reservation} {block : IdentityBlock}

theorem getElem?_append_of_some {α : Type} {l : List α} {i : Nat} {a : α} (h : l[i]? = some a)
    (more : List α) : (l ++ more)[i]? = some a :=
  (List.getElem?_append_left (List.getElem?_eq_some_iff.mp h).1).trans h

theorem Placed.mono (h : Placed plans o r block) (more : List Reservation) :
    Placed (plans ++ more) o r block :=
  { h with plan := getElem?_append_of_some h.plan more }

theorem Placed.step_eq (h : Placed plans o r block) : o.cursor.block.step = block.step := by
  have hpart := h.part
  split at hpart
  · rw [hpart.2]
  · exact (slot_ok hpart).2.2.2.1

theorem Placed.term_eq (h : Placed plans o r block) (k : Int) :
    o.cursor.block.term k = block.term (o.index k) := by
  have hpart := h.part
  split at hpart
  · simp [Object.index, hpart.1, hpart.2]
  · obtain ⟨-, -, -, hstep, hfirst⟩ := slot_ok hpart
    simp only [IdentityBlock.term, Object.index, hstep, hfirst]
    ring

theorem Placed.index_bounds (h : Placed plans o r block) {k : Int} (hk : 0 ≤ k)
    (hroom : k < o.cursor.block.count) : 0 ≤ o.index k ∧ o.index k < block.count := by
  have hpart := h.part
  split at hpart
  · rw [hpart.2] at hroom
    simp only [Object.index, hpart.1]
    omega
  · rename_i slots hslots
    obtain ⟨htask, hlt, hcount, -, -⟩ := slot_ok hpart
    have hsize : slots * o.cursor.block.count ≤ block.count := by
      rw [hcount]
      exact Int.mul_ediv_self_le (by omega)
    have hnext : (o.task + 1) * o.cursor.block.count ≤ slots * o.cursor.block.count :=
      mul_le_mul_of_nonneg_right (by omega) (by omega)
    have hbefore : 0 ≤ o.task * o.cursor.block.count := mul_nonneg htask (by omega)
    rw [add_mul, one_mul] at hnext
    simp only [Object.index]
    omega

theorem Placed.index_ne (h : Placed plans o r block) (h' : Placed plans o' r block)
    (htask : o.task ≠ o'.task) {k k' : Int} (hk : 0 ≤ k) (hroom : k < o.cursor.block.count)
    (hk' : 0 ≤ k') (hroom' : k' < o'.cursor.block.count) : o.index k ≠ o'.index k' := by
  have hpart := h.part
  have hpart' := h'.part
  split at hpart
  · rename_i hslots
    rw [hslots] at hpart'
    exact absurd (hpart.1.trans hpart'.1.symm) htask
  · rename_i slots hslots
    rw [hslots] at hpart'
    obtain ⟨-, -, hcount, -, -⟩ := slot_ok hpart
    obtain ⟨-, -, hcount', -, -⟩ := slot_ok hpart'
    have hsame : o'.cursor.block.count = o.cursor.block.count := hcount'.trans hcount.symm
    simp only [Object.index, hsame] at hroom' ⊢
    intro heq
    rcases lt_or_gt_of_ne htask with hlt | hgt
    · have hnext : (o.task + 1) * o.cursor.block.count ≤ o'.task * o.cursor.block.count :=
        mul_le_mul_of_nonneg_right (by omega) (by omega)
      rw [add_mul, one_mul] at hnext
      omega
    · have hnext : (o'.task + 1) * o.cursor.block.count ≤ o.task * o.cursor.block.count :=
        mul_le_mul_of_nonneg_right (by omega) (by omega)
      rw [add_mul, one_mul] at hnext
      omega

end

section
variable {int : IntOf} {schema current : Schema} {plans : List Reservation} {o o' : Object}
  {r r' : Reservation} {block block' : IdentityBlock}

theorem Log.block_eq (h : Log int schema plans current) (hr : plans[o.plan]? = some r)
    {column : String} (hb : (column, block) ∈ r.blocks) (hb' : (column, block') ∈ r.blocks) :
    block = block' := by
  have hnodup := h.nodup r (mem_of_getElem? hr)
  have hpair := inj_on_of_nodup_map hnodup hb hb' rfl
  exact congrArg Prod.snd hpair

theorem Log.beyond (h : Log int schema plans current) (hp : Placed plans o r block)
    (hp' : Placed plans o' r' block') (hcolumn : o.column = o'.column) (hplan : o.plan < o'.plan)
    (hstep : block.step ≠ 0) {k k' : Int} (hk : k < block.count) (hk' : 0 ≤ k') :
    block'.step = block.step ∧ Beyond block.step (block.term k) (block'.term k') := by
  obtain ⟨hlt, hget⟩ := List.getElem?_eq_some_iff.mp hp.plan
  obtain ⟨hlt', hget'⟩ := List.getElem?_eq_some_iff.mp hp'.plan
  have hord := pairwise_iff_getElem.mp h.ordered o.plan o'.plan hlt hlt' hplan
  rw [hget, hget'] at hord
  obtain ⟨hsame, hbeyond⟩ := hord o.column block block' hp.mem (hcolumn ▸ hp'.mem)
  refine ⟨hsame, ?_⟩
  have hfirst : Within block.step block'.first (block'.term k') := by
    rw [← hsame]
    exact block'.first_within hk'
  exact ((block.within_last hk).beyond (hbeyond hstep)).of_within hfirst

theorem Log.separate (h : Log int schema plans current) (hp : Placed plans o r block)
    (hp' : Placed plans o' r' block') (hcolumn : o.column = o'.column)
    (horigin : o.origin ≠ o'.origin) (hstep : o.cursor.block.step ≠ 0)
    (hstep' : o'.cursor.block.step ≠ 0) {k k' : Int} (hk : 0 ≤ k)
    (hroom : k < o.cursor.block.count) (hk' : 0 ≤ k') (hroom' : k' < o'.cursor.block.count) :
    o.cursor.block.term k ≠ o'.cursor.block.term k' := by
  rw [hp.term_eq, hp'.term_eq]
  obtain ⟨hlow, hhigh⟩ := hp.index_bounds hk hroom
  obtain ⟨hlow', hhigh'⟩ := hp'.index_bounds hk' hroom'
  rw [hp.step_eq] at hstep
  rw [hp'.step_eq] at hstep'
  rcases lt_trichotomy o.plan o'.plan with hlt | heq | hgt
  · exact (h.beyond hp hp' hcolumn hlt hstep hhigh hlow').2.ne
  · have hr : r = r' := Option.some_inj.mp (hp.plan.symm.trans (heq ▸ hp'.plan))
    subst hr
    have hb : block = block' := h.block_eq hp.plan hp.mem (hcolumn ▸ hp'.mem)
    subst hb
    have htask : o.task ≠ o'.task := by
      intro htask
      exact horigin (by simp [Object.origin, heq, htask, hcolumn])
    intro hterm
    exact hp.index_ne hp' htask hk hroom hk' hroom' (term_inj hstep hterm)
  · exact (h.beyond hp' hp hcolumn.symm hgt hstep' hhigh' hlow).2.ne.symm

end

end DeltaSwamp.Identity
