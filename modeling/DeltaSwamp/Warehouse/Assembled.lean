import DeltaSwamp.Warehouse.Result
import Mathlib.Data.List.Chain

/-!
# A result assembled whole

What `_arrow` returns: the rows of the links on the way the pointers lead. Where
every chunk carries its number the loop ends, and a table with all the rows
there are, no link of it read twice, holds each link's rows once.
-/

namespace DeltaSwamp.Warehouse

open List

section
variable {σ ρ : Type} (server : Server σ ρ)

/-- A stream some download of the link gives. -/
def Fetched (link : Link) (stream : Stream σ ρ) : Prop :=
  ∃ request, server.fetch request link = some (some stream)

/-- Where a link is found again: the chunk to ask for, and the position in its answer. -/
def Link.again (link : Link) (index : Option Int) (position : Nat) : Option Int × Nat :=
  match link.chunkIndex with
  | none => (index, position)
  | some linkIndex => (some linkIndex, 0)

/-- A stream read for a link: from itself, or from its place in a fresh answer. -/
def Serves (index : Option Int) (entry : Link × Nat) (stream : Stream σ ρ) : Prop :=
  Fetched server entry.1 stream ∨
    ∃ number request fresh link, (entry.1.again index entry.2).1 = some number ∧
      server.chunk request number = some (some fresh) ∧
      fresh.externalLinks[(entry.1.again index entry.2).2]? = some link ∧
      Fetched server link stream

/-- The streams read for the links of a chunk. -/
def ServesAll (c : Chunk) (streams : List (Stream σ ρ)) : Prop :=
  c.externalLinks.zipIdx.Forall₂ (Serves server c.index) streams

/-- A chunk the server gives. -/
def Given (response : Response) (c : Chunk) : Prop :=
  response.result = some c ∨ ∃ request number, server.chunk request number = some (some c)

/-- The pointer a chunk leads on by: the last of its links' own, or else its own. -/
def pointer (next : Option Int) (links : List Link) : Option Int :=
  links.foldl (fun next link => link.nextChunkIndex <|> next) next

def Chunk.pointer (c : Chunk) : Option Int :=
  DeltaSwamp.Warehouse.pointer c.nextChunkIndex c.externalLinks

/-- The way through a result: from a chunk by its pointer to the answer, until there is none. -/
inductive Leads : Option Chunk → List Chunk → Prop
  | stop : Leads none []
  | last {c : Chunk} : c.pointer = none → Leads (some c) [c]
  | next {c : Chunk} {request : Nat} {number : Int} {answer : Option Chunk} {way : List Chunk} :
      c.pointer = some number → server.chunk request number = some answer → Leads answer way →
      Leads (some c) (c :: way)

/-- The place of a link: the number of its chunk, and its position among the chunk's. -/
def Link.place (link : Link) (index : Option Int) (position : Nat) : Int × Nat :=
  ((link.again index position).1.getD 0, (link.again index position).2)

def Chunk.places (c : Chunk) : List (Int × Nat) :=
  c.externalLinks.zipIdx.map fun entry => entry.1.place c.index entry.2

/-- The places of a result of `n` chunks, chunk after chunk. -/
def places (n : Nat) (parts : Nat → Nat) : List (Int × Nat) :=
  (range n).flatMap fun i => (range (parts i)).map fun p => ((i : Int), p)

/-- Every chunk is numbered among `n`, every link has a place among the result's, and what is
read for it are the rows of its place. -/
structure Truthful (response : Response) (n : Nat) (parts : Nat → Nat)
    (rows : Int × Nat → List ρ) : Prop where
  numbered : ∀ c, Given server response c → ∃ i : Nat, i < n ∧ c.index = some (i : Int)
  placed : ∀ c, Given server response c → c.places ⊆ places n parts
  holds : ∀ c, Given server response c → ∀ entry ∈ c.externalLinks.zipIdx, ∀ stream,
    Serves server c.index entry stream → stream.rows = rows (entry.1.place c.index entry.2)

/-- Each chunk's links ascend from its number on, and its pointer leads beyond them. -/
structure Forward (response : Response) : Prop where
  ascending : ∀ c, Given server response c → c.places.Pairwise (Prod.Lex (· < ·) (· < ·))
  above : ∀ c i, Given server response c → c.index = some i → ∀ place ∈ c.places, i ≤ place.1
  ahead : ∀ c request number c', Given server response c → c.pointer = some number →
    server.chunk request number = some (some c') → ∀ i j, c.index = some i → c'.index = some j →
      i < j ∧ ∀ place ∈ c.places, place.1 < j

variable {server} {statementId : Bool} {response : Response}

variable {requests : Nat}

theorem download_ok {link : Link} {stream : Stream σ ρ}
    (h : download server requests link = .ok (some stream)) : Fetched server link stream := by
  unfold download at h
  split_ifs at h
  cases hfetch : server.fetch requests link with
  | none => rw [hfetch] at h; cases h
  | some data =>
    rw [hfetch] at h
    cases h
    exact ⟨requests, hfetch⟩

theorem downloadFresh_ok {requests' : Nat} {link : Link} {index : Option Int} {position : Nat}
    {stream : Stream σ ρ} (h : downloadFresh server statementId requests link index position =
      .ok (some stream, requests')) :
    Fetched server link stream ∨ ∃ number request fresh again, index = some number ∧
      server.chunk request number = some (some fresh) ∧
      fresh.externalLinks[position]? = some again ∧ Fetched server again stream := by
  unfold downloadFresh at h
  split at h
  · rename_i data hdownload
    cases h
    exact .inl (download_ok hdownload)
  · split at h
    · cases h
    · rename_i number
      split_ifs at h
      split at h
      · cases h
      · rename_i fresh hfresh
        cases fresh with
        | none => simp at h
        | some fresh =>
          simp only [Option.map_some, Option.getD_some] at h
          split at h
          · cases h
          · rename_i again hagain
            obtain ⟨data, hdata, heq⟩ := Result.map_eq_ok_iff.mp h
            cases heq
            exact .inr ⟨number, requests + 1, fresh, again, rfl, hfresh, hagain,
              download_ok hdata⟩
  · cases h

theorem readLinks_ok {index : Option Int} {links : List Link} {p p' : Progress σ ρ}
    {next next' : Option Int} {position : Nat}
    (h : readLinks server statementId index p next position links = .ok (p', next')) :
    next' = pointer next links ∧ p'.seen = p.seen ∧ ∃ streams,
      p'.streams = p.streams ++ streams ∧
      (links.zipIdx position).Forall₂ (Serves server index) streams := by
  induction links generalizing p next position with
  | nil =>
    cases h
    exact ⟨rfl, rfl, [], by simp, .nil⟩
  | cons link links ih =>
    rw [readLinks] at h
    have hserves : ∀ stream requests,
        (match link.chunkIndex with
          | none => downloadFresh server statementId p.requests link index position
          | some linkIndex =>
            downloadFresh server statementId p.requests link (some linkIndex) 0) =
          .ok (some stream, requests) → Serves server index (link, position) stream := by
      intro stream requests hfetched
      unfold Serves Link.again
      cases hindex : link.chunkIndex with
      | none =>
        rw [hindex] at hfetched
        exact downloadFresh_ok hfetched
      | some linkIndex =>
        rw [hindex] at hfetched
        exact downloadFresh_ok hfetched
    split at h
    · cases h
    · cases h
    · rename_i stream requests hfetched
      obtain ⟨hnext, hseen, streams, hstreams, hall⟩ := ih h
      apply And.intro hnext
      apply And.intro hseen
      apply Exists.intro (stream :: streams)
      constructor
      · rw [hstreams, append_assoc]
        rfl
      · rw [zipIdx_cons]
        exact .cons (hserves _ _ hfetched) hall

variable {c : Chunk}

theorem visit_ok {p p' : Progress σ ρ} {next : Option Int}
    (h : visit server statementId p c = .ok (p', next)) :
    next = c.pointer ∧ p'.seen = p.seen ++ c.index.toList ∧ (∀ i ∈ c.index, i ∉ p.seen) ∧
      ∃ streams, p'.streams = p.streams ++ streams ∧ ServesAll server c streams := by
  unfold visit at h
  cases hindex : c.index with
  | none =>
    rw [hindex] at h
    obtain ⟨hnext, hseen, streams, hstreams, hall⟩ := readLinks_ok h
    exact ⟨hnext, by simp [hseen], by simp, streams, hstreams, by rwa [ServesAll, hindex]⟩
  | some index =>
    rw [hindex] at h
    simp only at h
    split_ifs at h with hmem
    obtain ⟨hnext, hseen, streams, hstreams, hall⟩ := readLinks_ok h
    exact ⟨hnext, hseen, by simpa using hmem, streams, hstreams, by rwa [ServesAll, hindex]⟩

/-- The chunks gone through, each with what was read for it. -/
structure Path (server : Server σ ρ) (response : Response) (first : Option Chunk)
    (p p' : Progress σ ρ) (visited : List (Chunk × List (Stream σ ρ))) : Prop where
  streams : p'.streams = p.streams ++ visited.flatMap Prod.snd
  seen : p'.seen = p.seen ++ visited.flatMap fun v => v.1.index.toList
  given : ∀ v ∈ visited, Given server response v.1
  served : ∀ v ∈ visited, ServesAll server v.1 v.2
  leads : Leads server first (visited.map Prod.fst)

theorem follow_none (turns : Nat) (p : Progress σ ρ) :
    follow server statementId turns p none = some (.ok p) := by
  cases turns with
  | zero => rfl
  | succ turns => rfl

variable {turns : Nat} {first : Option Chunk}

theorem Path.refl (p : Progress σ ρ) : Path server response none p p [] :=
  ⟨by simp, by simp, by simp, by simp, .stop⟩

theorem nodup_snoc {seen : List Int} {index : Option Int} (hnodup : seen.Nodup)
    (hnew : ∀ i ∈ index, i ∉ seen) : (seen ++ index.toList).Nodup := by
  cases index with
  | none => simpa using hnodup
  | some i =>
    have hi := hnew i rfl
    rw [Option.toList_some, nodup_append]
    refine ⟨hnodup, nodup_singleton i, ?_⟩
    intro a ha b hb
    rw [mem_singleton] at hb
    subst hb
    exact fun heq => hi (heq ▸ ha)

theorem follow_ok {p p' : Progress σ ρ} (hgiven : ∀ c ∈ first, Given server response c)
    (hnodup : p.seen.Nodup) (h : follow server statementId turns p first = some (.ok p')) :
    p'.seen.Nodup ∧ ∃ visited, Path server response first p p' visited := by
  induction turns generalizing p first with
  | zero =>
    cases first with
    | none =>
      cases h
      exact ⟨hnodup, [], .refl _⟩
    | some c => cases h
  | succ turns ih =>
    cases first with
    | none =>
      cases h
      exact ⟨hnodup, [], .refl _⟩
    | some c =>
      rw [follow] at h
      cases hvisit : visit server statementId p c with
      | error raised => rw [hvisit] at h; cases h
      | ok r =>
        obtain ⟨q, next⟩ := r
        obtain ⟨hnext, hseen, hnew, streams, hstreams, hall⟩ := visit_ok hvisit
        have hq : q.seen.Nodup := hseen ▸ nodup_snoc hnodup hnew
        have hc := hgiven c rfl
        rw [hvisit] at h
        cases next with
        | none =>
          cases h
          refine ⟨hq, [(c, streams)], by simpa using hstreams, by simpa using hseen,
            by simpa using hc, by simpa using hall, .last hnext.symm⟩
        | some next =>
          simp only at h
          cases hchunk : server.chunk q.requests next with
          | none => rw [hchunk] at h; cases h
          | some answer =>
            rw [hchunk] at h
            have hgiven' : ∀ c' ∈ answer, Given server response c' := by
              rintro c' rfl
              exact .inr ⟨_, _, hchunk⟩
            obtain ⟨hlast, visited, hpath⟩ :=
              ih (p := { q with requests := q.requests + 1 }) hgiven' hq h
            refine ⟨hlast, (c, streams) :: visited, ?_, ?_, ?_, ?_, ?_⟩
            · rw [hpath.streams, hstreams, append_assoc]
              rfl
            · rw [hpath.seen, hseen, append_assoc]
              rfl
            · exact forall_mem_cons.mpr ⟨hc, hpath.given⟩
            · exact forall_mem_cons.mpr ⟨hall, hpath.served⟩
            · exact .next hnext.symm hchunk hpath.leads

/-- Numbers seen once each, all below `n`. -/
def Counted (n : Nat) (seen : List Int) : Prop :=
  seen.Nodup ∧ ∀ i ∈ seen, ∃ k : Nat, k < n ∧ i = k

theorem Counted.length_le {n : Nat} {seen : List Int} (h : Counted n seen) : seen.length ≤ n := by
  have hsubset : seen ⊆ (List.range n).map Int.ofNat := by
    intro i hi
    obtain ⟨k, hk, rfl⟩ := h.2 i hi
    exact mem_map.mpr ⟨k, mem_range.mpr hk, rfl⟩
  simpa using (h.1.subperm hsubset).length_le

theorem Counted.snoc {n k : Nat} {seen : List Int} (h : Counted n seen) (hk : k < n)
    (hnew : (k : Int) ∉ seen) : Counted n (seen ++ [(k : Int)]) := by
  constructor
  · apply nodup_append.mpr
    refine ⟨h.1, nodup_singleton _, ?_⟩
    intro i hi j hj
    rw [mem_singleton] at hj
    subst hj
    exact fun heq => hnew (heq ▸ hi)
  · intro i hi
    obtain hi | hi := mem_append.mp hi
    · exact h.2 i hi
    · exact ⟨k, hk, mem_singleton.mp hi⟩

theorem follow_ends {n : Nat} {p : Progress σ ρ}
    (hnumbered : ∀ c, Given server response c → ∃ i : Nat, i < n ∧ c.index = some (i : Int))
    (hgiven : Given server response c) (hcounted : Counted n p.seen)
    (hturns : n < turns + p.seen.length) : (follow server statementId turns p (some c)).isSome := by
  induction turns generalizing p c with
  | zero =>
    have := hcounted.length_le
    omega
  | succ turns ih =>
    rw [follow]
    cases hvisit : visit server statementId p c with
    | error raised => rfl
    | ok r =>
      obtain ⟨q, next⟩ := r
      obtain ⟨-, hseen, hnew, -⟩ := visit_ok hvisit
      obtain ⟨i, hi, hindex⟩ := hnumbered c hgiven
      rw [hindex, Option.toList_some] at hseen
      have hnot : (i : Int) ∉ p.seen := hnew _ hindex
      cases next with
      | none => rfl
      | some next =>
        simp only
        cases hchunk : server.chunk q.requests next with
        | none => rfl
        | some c' =>
          cases c' with
          | none =>
            simp only [follow_none]
            rfl
          | some c' =>
            apply ih (.inr ⟨_, _, hchunk⟩)
            · simpa only [hseen] using hcounted.snoc hi hnot
            · simp only [hseen, length_append, length_singleton]
              omega

/-! ## What is returned -/

theorem flatMap_filter {α β : Type} {l : List α} {p : α → Bool} {f : α → List β}
    (h : ∀ a ∈ l, p a = false → f a = []) : (l.filter p).flatMap f = l.flatMap f := by
  induction l with
  | nil => rfl
  | cons a l ih =>
    have hrest := ih fun b hb => h b (mem_cons_of_mem a hb)
    cases hp : p a with
    | true => rw [filter_cons_of_pos hp, flatMap_cons, flatMap_cons, hrest]
    | false =>
      rw [filter_cons_of_neg (by simp [hp]), hrest, flatMap_cons,
        h a mem_cons_self hp, nil_append]

section
variable {α β : Type} [DecidableEq α] {l all : List α} {f : α → List β}

theorem perm_filter_mem (hnodup : l.Nodup) (hall : all.Nodup) (hsub : l ⊆ all) :
    l.Perm (all.filter fun a => decide (a ∈ l)) := by
  apply (perm_ext_iff_of_nodup hnodup (hall.filter _)).mpr
  intro a
  simpa using fun ha => hsub ha

/-- Where some of the rows are all there are, the rest are none. -/
theorem eq_nil_of_rest (hnodup : l.Nodup) (hall : all.Nodup) (hsub : l ⊆ all)
    (hlength : (l.flatMap f).length = (all.flatMap f).length) :
    ∀ a ∈ all, a ∉ l → f a = [] := by
  have hperm := perm_filter_mem hnodup hall hsub
  have hsplit := filter_append_perm (fun a => decide (a ∈ l)) all
  have hsum := ((hsplit.map fun a => (f a).length).sum_eq).symm
  rw [length_flatMap, length_flatMap] at hlength
  rw [map_append, sum_append, ← (hperm.map fun a => (f a).length).sum_eq, ← hlength] at hsum
  intro a ha hnot
  have hmem : (f a).length ∈ (all.filter fun a => !decide (a ∈ l)).map fun a => (f a).length := by
    apply mem_map_of_mem
    rw [mem_filter]
    exact ⟨ha, by simpa using hnot⟩
  have hle := single_le_sum (fun _ _ => Nat.zero_le _) _ hmem
  apply eq_nil_of_length_eq_zero
  omega

/-- In an order, some of the rows that are all there are, are all the rows. -/
theorem flatMap_eq_of_ascending {r : α → α → Prop} (hanti : ∀ a b, r a b → r b a → a = b)
    (hnodup : l.Nodup) (hall : all.Nodup) (hl : l.Pairwise r) (hr : all.Pairwise r)
    (hsub : l ⊆ all) (hlength : (l.flatMap f).length = (all.flatMap f).length) :
    l.flatMap f = all.flatMap f := by
  have hrest := eq_nil_of_rest hnodup hall hsub hlength
  have heq : l = all.filter fun a => decide (a ∈ l) := by
    apply (perm_filter_mem hnodup hall hsub).eq_of_pairwise _ hl (hr.filter _)
    exact fun a b _ _ => hanti a b
  calc l.flatMap f
      = (all.filter fun a => decide (a ∈ l)).flatMap f := congrArg (List.flatMap f) heq
    _ = all.flatMap f := flatMap_filter fun a ha hnot => hrest a ha (of_decide_eq_false hnot)

end

theorem lex_antisymm {a b : Int × Nat} (hab : Prod.Lex (· < ·) (· < ·) a b)
    (hba : Prod.Lex (· < ·) (· < ·) b a) : a = b := by
  rw [Prod.lex_def] at hab hba
  omega

theorem nodup_of_ascending {l : List (Int × Nat)} (h : l.Pairwise (Prod.Lex (· < ·) (· < ·))) :
    l.Nodup := by
  refine h.imp fun {a b} hab heq => ?_
  subst heq
  rw [Prod.lex_def] at hab
  omega

variable {n : Nat} {parts : Nat → Nat} {rows : Int × Nat → List ρ}

theorem places_ascending : (places n parts).Pairwise (Prod.Lex (· < ·) (· < ·)) := by
  rw [places, pairwise_flatMap]
  constructor
  · intro i _
    rw [pairwise_map]
    have hrange : (range (parts i)).Pairwise (· < ·) := pairwise_lt_range
    refine hrange.imp ?_
    intro p q hlt
    exact Prod.lex_def.mpr (.inr ⟨rfl, hlt⟩)
  · have hrange : (range n).Pairwise (· < ·) := pairwise_lt_range
    refine hrange.imp ?_
    intro i j hlt a ha b hb
    obtain ⟨p, -, rfl⟩ := mem_map.mp ha
    obtain ⟨q, -, rfl⟩ := mem_map.mp hb
    exact Prod.lex_def.mpr (.inl (by simpa using hlt))

/-! ## On the way -/

theorem Truthful.rows_eq {streams : List (Stream σ ρ)}
    (h : Truthful server response n parts rows) (hgiven : Given server response c)
    (hserves : ServesAll server c streams) :
    streams.flatMap Stream.rows = c.places.flatMap rows := by
  have hall : ∀ entries : List (Link × Nat), entries ⊆ c.externalLinks.zipIdx →
      entries.Forall₂ (Serves server c.index) streams → streams.flatMap Stream.rows =
        (entries.map fun entry => entry.1.place c.index entry.2).flatMap rows := by
    intro entries hsub hforall
    clear hserves
    induction hforall with
    | nil => rfl
    | cons hentry hrest ih =>
      obtain ⟨hmem, hsub⟩ := cons_subset.mp hsub
      rw [flatMap_cons, map_cons, flatMap_cons, ih hsub, h.holds c hgiven _ hmem _ hentry]
  exact hall _ (Subset.refl _) hserves

variable {p p' : Progress σ ρ} {visited : List (Chunk × List (Stream σ ρ))}

theorem Path.rows_eq (h : Path server response first p p' visited)
    (htruthful : Truthful server response n parts rows) :
    (visited.flatMap Prod.snd).flatMap Stream.rows =
      ((visited.map Prod.fst).flatMap Chunk.places).flatMap rows := by
  rw [flatMap_assoc, flatMap_assoc, flatMap_map]
  exact flatMap_congr fun v hv => htruthful.rows_eq (h.given v hv) (h.served v hv)

theorem Path.numbers_eq (h : Path server response first p p' visited)
    (htruthful : Truthful server response n parts rows) :
    p'.seen.map some = p.seen.map some ++ (visited.map Prod.fst).map Chunk.index := by
  rw [h.seen, map_append, map_flatMap, map_map]
  congr 1
  rw [← flatMap_pure_eq_map]
  apply flatMap_congr
  intro v hv
  obtain ⟨i, -, hi⟩ := htruthful.numbered v.1 (h.given v hv)
  simp [hi]

theorem Leads.ascending {way : List Chunk} (h : Leads server first way)
    (htruthful : Truthful server response n parts rows) (hforward : Forward server response)
    (hgiven : ∀ c ∈ first, Given server response c) :
    (way.flatMap Chunk.places).Pairwise (Prod.Lex (· < ·) (· < ·)) ∧
      ∀ c ∈ first, ∀ i, c.index = some i → ∀ place ∈ way.flatMap Chunk.places, i ≤ place.1 := by
  induction h with
  | stop => exact ⟨.nil, by simp⟩
  | @last c hpointer =>
    have hc := hgiven c rfl
    rw [flatMap_singleton]
    constructor
    · exact hforward.ascending c hc
    · intro c' hc' i hi
      cases hc'
      exact hforward.above c i hc hi
  | @next c request number answer way hpointer hchunk hrest ih =>
    have hc := hgiven c rfl
    have hgiven' : ∀ c' ∈ answer, Given server response c' := by
      rintro c' rfl
      exact .inr ⟨_, _, hchunk⟩
    obtain ⟨hascending, habove⟩ := ih hgiven'
    -- all that comes after lies at the number of the next answer or above
    have hbeyond : ∀ place ∈ way.flatMap Chunk.places, ∃ j : Int,
        (∀ i, c.index = some i → i < j ∧ ∀ place ∈ c.places, place.1 < j) ∧ j ≤ place.1 := by
      intro place hplace
      cases answer with
      | none =>
        cases hrest
        cases hplace
      | some c' =>
        obtain ⟨j, -, hj⟩ := htruthful.numbered c' (hgiven' c' rfl)
        exact ⟨j, fun i hi => hforward.ahead c request number c' hc hpointer hchunk i j hi hj,
          habove c' rfl j hj place hplace⟩
    obtain ⟨k, -, hk⟩ := htruthful.numbered c hc
    rw [flatMap_cons]
    constructor
    · refine pairwise_append.mpr ⟨hforward.ascending c hc, hascending, fun a ha b hb => ?_⟩
      obtain ⟨j, hj, hle⟩ := hbeyond b hb
      exact Prod.lex_def.mpr (.inl (lt_of_lt_of_le ((hj k hk).2 a ha) hle))
    · intro c' hc' i hi place hplace
      cases hc'
      rcases mem_append.mp hplace with hplace | hplace
      · exact hforward.above c i hc hi place hplace
      · obtain ⟨j, hj, hle⟩ := hbeyond place hplace
        exact (hj i hi).1.le.trans hle

theorem assemble_ok [DecidableEq σ] {manifest : Manifest} {streams : List (Stream σ ρ)}
    {table : Stream σ ρ} (h : assemble server manifest streams = .ok table) :
    table.rows = streams.flatMap Stream.rows ∧
      ∀ expected, manifest.totalRowCount = some expected → table.rows.length = expected := by
  unfold assemble at h
  simp only at h
  split_ifs at h
  cases hcount : manifest.totalRowCount with
  | none =>
    rw [hcount] at h
    cases h
    exact ⟨rfl, fun _ h => by cases h⟩
  | some expected =>
    rw [hcount] at h
    simp only at h
    split_ifs at h with hlength
    cases h
    apply And.intro rfl
    intro _ heq
    cases heq
    exact not_not.mp hlength

theorem firstChunk_given (h : firstChunk server response = .ok (requests, first)) :
    ∀ c ∈ first, Given server response c := by
  rintro c rfl
  unfold firstChunk at h
  split at h
  · rename_i hresult
    cases h
    exact .inl hresult
  · split_ifs at h
    · split at h
      · cases h
      · rename_i hchunk
        cases h
        exact .inr ⟨0, 0, hchunk⟩
    · cases h

theorem arrow_ok [DecidableEq σ] {table : Stream σ ρ}
    (h : arrow server response turns = some (.ok table)) :
    ∃ requests first p' visited, firstChunk server response = .ok (requests, first) ∧
      Path server response first ⟨requests, [], []⟩ p' visited ∧ p'.seen.Nodup ∧
      assemble server response.manifest p'.streams = .ok table := by
  unfold arrow at h
  split_ifs at h
  · cases h
  · cases hfirst : firstChunk server response with
    | error raised => rw [hfirst] at h; cases h
    | ok answered =>
      obtain ⟨requests, first⟩ := answered
      rw [hfirst] at h
      obtain ⟨r, hfollow, hr⟩ := Option.map_eq_some_iff.mp h
      cases r with
      | error raised => cases hr
      | ok p' =>
        obtain ⟨hnodup, visited, hpath⟩ := follow_ok (firstChunk_given hfirst) nodup_nil hfollow
        exact ⟨requests, first, p', visited, rfl, hpath, hnodup, hr⟩

theorem arrow_ends [DecidableEq σ]
    (hnumbered : ∀ c, Given server response c → ∃ i : Nat, i < n ∧ c.index = some (i : Int)) :
    (arrow server response (n + 1)).isSome := by
  unfold arrow
  split_ifs
  · rfl
  · cases hfirst : firstChunk server response with
    | error raised => rfl
    | ok first =>
      obtain ⟨requests, c⟩ := first
      cases c with
      | none =>
        simp only [follow_none]
        rfl
      | some c =>
        have hends : (follow server response.statementId (n + 1) ⟨requests, [], []⟩
            (some c)).isSome := by
          apply follow_ends hnumbered (firstChunk_given hfirst c rfl)
          · exact ⟨nodup_nil, by simp⟩
          · simp only [length_nil]
            omega
        simpa only [Option.isSome_map] using hends

/-- A numbered result is read to an end. What is returned are the rows of the links on the way
the pointers lead; where they are all the rows, none is missing if no link is read twice, and
they are in order if the way goes forward. -/
theorem arrow_assembles [DecidableEq σ] (htruthful : Truthful server response n parts rows) :
    (arrow server response (n + 1)).isSome ∧
      ∀ turns table, arrow server response turns = some (.ok table) →
        ∃ requests first way, firstChunk server response = .ok (requests, first) ∧
          Leads server first way ∧ (way.map Chunk.index).Nodup ∧
          table.rows = (way.flatMap Chunk.places).flatMap rows ∧
          (response.manifest.totalRowCount = some ((places n parts).flatMap rows).length →
            ((way.flatMap Chunk.places).Nodup → ∀ place ∈ places n parts, rows place ≠ [] →
              place ∈ way.flatMap Chunk.places) ∧
            (Forward server response → table.rows = (places n parts).flatMap rows)) := by
  apply And.intro (arrow_ends htruthful.numbered)
  intro turns table h
  obtain ⟨requests, first, p', visited, hfirst, hpath, hnodup, htable⟩ := arrow_ok h
  obtain ⟨hassembled, hlength⟩ := assemble_ok htable
  have hnumbers : ((visited.map Prod.fst).map Chunk.index).Nodup := by
    have hseen := hpath.numbers_eq htruthful
    rw [map_nil, nil_append] at hseen
    rw [← hseen]
    exact hnodup.map (Option.some_injective _)
  have hrows : table.rows = ((visited.map Prod.fst).flatMap Chunk.places).flatMap rows := by
    rw [hassembled, hpath.streams, nil_append, hpath.rows_eq htruthful]
  have hsub : (visited.map Prod.fst).flatMap Chunk.places ⊆ places n parts := by
    intro place hplace
    obtain ⟨c, hc, hplace⟩ := mem_flatMap.mp hplace
    obtain ⟨v, hv, rfl⟩ := mem_map.mp hc
    exact htruthful.placed v.1 (hpath.given v hv) hplace
  refine ⟨requests, first, visited.map Prod.fst, hfirst, hpath.leads, hnumbers, hrows, ?_⟩
  intro hcount
  have hall := hlength _ hcount
  rw [hrows] at hall ⊢
  constructor
  · intro honce place hplace hsome
    by_contra hnot
    exact hsome (eq_nil_of_rest honce (nodup_of_ascending places_ascending) hsub hall place hplace
      hnot)
  · intro hforward
    obtain ⟨hascending, -⟩ :=
      hpath.leads.ascending htruthful hforward (firstChunk_given hfirst)
    exact flatMap_eq_of_ascending (fun _ _ => lex_antisymm) (nodup_of_ascending hascending)
      (nodup_of_ascending places_ascending) hascending places_ascending hsub hall

end

/-- The answer for a number: links with their numbers, and a pointer. -/
def part (links : Int → List Int) (next : Int → Option Int) (number : Int) : Chunk :=
  ⟨(links number).map fun i => ⟨"https://storage", some i, none⟩, none, next number⟩

def partsServer (links : Int → List Int) (next : Int → Option Int) : Server Unit Int where
  chunk _ number := if 0 ≤ number ∧ number < 3 then some (some (part links next number)) else none
  fetch _ link := some (link.chunkIndex.map fun number => ⟨(), [number]⟩)
  https _ := true
  manifestSchema := ()

def partsResponse (links : Int → List Int) (next : Int → Option Int) : Response :=
  ⟨true, ⟨false, some 3, some 3⟩, some (part links next 0)⟩

section
variable {links : Int → List Int} {next : Int → Option Int} {c : Chunk}

theorem parts_given (h : Given (partsServer links next) (partsResponse links next) c) :
    ∃ i : Nat, i < 3 ∧ c = part links next i := by
  obtain h | ⟨request, number, h⟩ := h
  · cases h
    exact ⟨0, by decide, rfl⟩
  · simp only [partsServer] at h
    split_ifs at h with hnumber
    cases h
    apply Exists.intro number.toNat
    constructor
    · omega
    · rw [Int.toNat_of_nonneg hnumber.1]

theorem parts_fetched {link : Link} {stream : Stream Unit Int}
    (h : Fetched (partsServer links next) link stream) :
    link.chunkIndex.map (fun i => [i]) = some stream.rows := by
  obtain ⟨request, h⟩ := h
  simp only [partsServer, Option.some.injEq, Option.map_eq_some_iff] at h
  obtain ⟨i, hi, rfl⟩ := h
  rw [hi]
  rfl

theorem part_index (hhead : ∀ i, (links i).head? = some i) (i : Int) :
    (part links next i).index = some i := by
  simp [part, Chunk.index, hhead]

theorem part_pointer (i : Int) : (part links next i).pointer = next i := by
  unfold Chunk.pointer pointer part
  dsimp only
  induction links i with
  | nil => rfl
  | cons j rest ih => exact ih

theorem part_places (i : Int) :
    (part links next i).places = (links i).map fun j => (j, 0) := by
  simp only [Chunk.places, part, zipIdx_map, map_map]
  conv_rhs => rw [← zipIdx_map_fst 0 (links i), map_map]
  rfl

/-- Each answer starts with the link of its number, and holds links of the result. -/
structure Serving (links : Int → List Int) : Prop where
  head : ∀ i, (links i).head? = some i
  among : ∀ i : Nat, i < 3 → ∀ j ∈ links i, ∃ k : Nat, k < 3 ∧ j = k

theorem parts_truthful (h : Serving links) :
    Truthful (partsServer links next) (partsResponse links next) 3 (fun _ => 1)
      fun place => [place.1] where
  numbered := by
    intro c hc
    obtain ⟨i, hi, rfl⟩ := parts_given hc
    exact ⟨i, hi, part_index h.head i⟩
  placed := by
    intro c hc place hplace
    obtain ⟨i, hi, rfl⟩ := parts_given hc
    rw [part_places] at hplace
    obtain ⟨j, hj, rfl⟩ := mem_map.mp hplace
    obtain ⟨k, hk, rfl⟩ := h.among i hi j hj
    exact mem_flatMap.mpr ⟨k, mem_range.mpr hk, by simp⟩
  holds := by
    intro c hc entry hentry stream hserves
    obtain ⟨i, hi, rfl⟩ := parts_given hc
    obtain ⟨j, hj⟩ : ∃ j, entry.1 = ⟨"https://storage", some j, none⟩ := by
      have hmem := mem_map.mp (fst_mem_of_mem_zipIdx hentry)
      obtain ⟨j, -, heq⟩ := hmem
      exact ⟨j, heq.symm⟩
    have hplace : (entry.1.place (part links next i).index entry.2).1 = j := by
      rw [hj]
      rfl
    rw [hplace]
    obtain hfetched | ⟨number, request, fresh, link, hnumber, hchunk, hlink, hfetched⟩ := hserves
    · have hrows := parts_fetched hfetched
      rw [hj] at hrows
      simpa using hrows.symm
    · rw [hj] at hnumber hlink
      cases hnumber
      simp only [partsServer] at hchunk
      split_ifs at hchunk
      cases hchunk
      have hfirst : (part links next j).externalLinks[0]? =
          some ⟨"https://storage", some j, none⟩ := by
        rw [← head?_eq_getElem?]
        simp [part, h.head]
      have hsame : link = ⟨"https://storage", some j, none⟩ :=
        Option.some.inj (hlink.symm.trans hfirst)
      have hrows := parts_fetched hfetched
      rw [hsame] at hrows
      simpa using hrows.symm

end

/-- Each answer holds the link of the next chunk too. -/
def prefetched (i : Int) : List Int := if 0 ≤ i ∧ i < 2 then [i, i + 1] else [i]

/-- The pointer of the first answer leads beyond its links. -/
def skipping (i : Int) : Option Int := if i = 0 then some 2 else none

theorem prefetched_serving : Serving prefetched where
  head i := by
    unfold prefetched
    split_ifs <;> rfl
  among i hi j hj := by
    unfold prefetched at hj
    split_ifs at hj with hlow
    · rcases mem_cons.mp hj with rfl | hj
      · exact ⟨i, hi, rfl⟩
      · obtain rfl := mem_singleton.mp hj
        exact ⟨i + 1, by omega, by simp⟩
    · obtain rfl := mem_singleton.mp hj
      exact ⟨i, hi, rfl⟩

theorem skipping_forward :
    Forward (partsServer prefetched skipping) (partsResponse prefetched skipping) where
  ascending c hc := by
    obtain ⟨i, -, rfl⟩ := parts_given hc
    rw [part_places, pairwise_map]
    unfold prefetched
    split_ifs
    · simp [Prod.lex_def]
    · simp
  above c i hc hi := by
    obtain ⟨k, -, rfl⟩ := parts_given hc
    rw [part_index prefetched_serving.head, Option.some.injEq] at hi
    subst hi
    rw [part_places]
    unfold prefetched
    split_ifs <;> simp
  ahead c request number c' hc hpointer hchunk i j hi hj := by
    obtain ⟨k, -, rfl⟩ := parts_given hc
    rw [part_pointer, skipping] at hpointer
    split_ifs at hpointer with hk
    cases hpointer
    cases hchunk
    rw [part_index prefetched_serving.head, Option.some.injEq] at hi hj
    subst hi hj
    rw [hk]
    exact ⟨by decide, by decide⟩

theorem arrow_assembles_prefetched :
    arrow (partsServer prefetched skipping) (partsResponse prefetched skipping) 4 =
        some (.ok ⟨(), [0, 1, 2]⟩) ∧
      ([0, 1, 2] : List Int) = (places 3 fun _ => 1).flatMap fun place => [place.1] := by
  have harrow : arrow (partsServer prefetched skipping) (partsResponse prefetched skipping) 4 =
      some (.ok ⟨(), [0, 1, 2]⟩) := rfl
  obtain ⟨_, _, _, _, _, _, _, hwhole⟩ :=
    (arrow_assembles (parts_truthful prefetched_serving)).2 4 ⟨(), [0, 1, 2]⟩ harrow
  exact ⟨harrow, (hwhole rfl).2 skipping_forward⟩

/-- Pointers that take the last chunk before the one in the middle. -/
def backward (i : Int) : Option Int :=
  if i = 0 then some 2 else if i = 2 then some 1 else none

/-- A server whose one chunk has no number and points to itself. -/
def endlessServer : Server Unit Int where
  chunk _ _ := some (some ⟨[], none, some 0⟩)
  fetch _ _ := none
  https _ := true
  manifestSchema := ()

theorem follow_endless (turns : Nat) (p : Progress Unit Int) :
    follow endlessServer true turns p (some ⟨[], none, some 0⟩) = none := by
  induction turns generalizing p with
  | zero => rfl
  | succ turns ih => exact ih _

theorem alone_serving : Serving fun i => [i] where
  head _ := rfl
  among i hi _ hj := ⟨i, hi, mem_singleton.mp hj⟩

/-- Every chunk is numbered and none is lost, and the rows come out of order; and a chunk without
a number is followed for ever. -/
theorem backward_misordered :
    (Truthful (partsServer (fun i => [i]) backward) (partsResponse (fun i => [i]) backward) 3
        (fun _ => 1) (fun place => [place.1]) ∧
      (partsResponse (fun i => [i]) backward).manifest.totalRowCount = some 3 ∧
      arrow (partsServer (fun i => [i]) backward) (partsResponse (fun i => [i]) backward) 4 =
        some (.ok ⟨(), [0, 2, 1]⟩) ∧
      ([0, 2, 1] : List Int) ≠ (places 3 fun _ => 1).flatMap fun place => [place.1]) ∧
    ∀ turns, arrow endlessServer ⟨true, ⟨false, none, none⟩, some ⟨[], none, some 0⟩⟩ turns =
      none := by
  constructor
  · exact ⟨parts_truthful alone_serving, rfl, rfl, by decide⟩
  · intro turns
    simp [arrow, firstChunk, follow_endless]

end DeltaSwamp.Warehouse
