import DeltaSwamp.Storage.Azure
import Mathlib.Data.List.TakeWhile

/-!
# Azure hosts

Labels and letter case, ports, and the blob host beside a dfs host.
-/

namespace DeltaSwamp.Storage

open List

theorem asciiLower_asciiLower (text : Text) : asciiLower (asciiLower text) = asciiLower text := by
  rw [asciiLower, asciiLower, map_map]
  exact map_congr_left fun c _ => toLower_toLower c

@[simp] theorem asciiLower_append (a b : Text) :
    asciiLower (a ++ b) = asciiLower a ++ asciiLower b := map_append

variable {text : Text}

theorem mem_asciiLower {d : Char} (hd : d.toNat < 65) : d ∈ asciiLower text ↔ d ∈ text := by
  simp [asciiLower, toLower_eq_iff hd]

theorem firstLabel_asciiLower (host : Text) :
    firstLabel (asciiLower host) = asciiLower (firstLabel host) := by
  simp only [firstLabel, asciiLower, takeWhile_map]
  congr 2
  funext c
  simp [toLower_eq_iff (c := c) (d := '.') (by decide)]

theorem afterLabel_asciiLower (host : Text) :
    afterLabel (asciiLower host) = asciiLower (afterLabel host) := by
  simp only [afterLabel, asciiLower, dropWhile_map, map_drop]
  congr 3
  funext c
  simp [toLower_eq_iff (c := c) (d := '.') (by decide)]

theorem dot_not_mem_firstLabel (host : Text) : '.' ∉ firstLabel host := by
  intro hmem
  simpa using mem_takeWhile_imp hmem

theorem labels {host : Text} (h : '.' ∈ host) :
    firstLabel host ++ '.' :: afterLabel host = host := by
  induction host with
  | nil => cases h
  | cons c host ih =>
    by_cases hc : c = '.'
    · subst hc
      simp [firstLabel, afterLabel]
    · have hrest : '.' ∈ host := (mem_cons.mp h).resolve_left (Ne.symm hc)
      have hsame := ih hrest
      simp only [firstLabel, afterLabel] at hsame ⊢
      simpa [takeWhile_cons, dropWhile_cons, hc] using hsame

variable {a : Text}

theorem firstLabel_append (ha : '.' ∉ a) (b : Text) : firstLabel (a ++ '.' :: b) = a := by
  have hall : ∀ c ∈ a, decide (c ≠ '.') = true := by
    intro c hc
    simpa using fun heq : c = '.' => ha (heq ▸ hc)
  rw [firstLabel, takeWhile_append_of_pos hall]
  simp

theorem afterLabel_append (ha : '.' ∉ a) (b : Text) : afterLabel (a ++ '.' :: b) = b := by
  have hall : ∀ c ∈ a, decide (c ≠ '.') = true := by
    intro c hc
    simpa using fun heq : c = '.' => ha (heq ▸ hc)
  rw [afterLabel, dropWhile_append_of_pos hall]
  simp

theorem firstLabel_dotted {host : Text} (h : '.' ∈ host) (more : Text) :
    firstLabel (host ++ more) = firstLabel host := by
  conv_lhs => rw [← labels h, append_assoc, cons_append]
  exact firstLabel_append (dot_not_mem_firstLabel host) _

theorem afterLabel_dotted {host : Text} (h : '.' ∈ host) (more : Text) :
    afterLabel (host ++ more) = afterLabel host ++ more := by
  conv_lhs => rw [← labels h, append_assoc, cons_append]
  exact afterLabel_append (dot_not_mem_firstLabel host) _

theorem endsWith_iff {last : String} : endsWith text last = true ↔ last.toList <:+ text := by
  simp [endsWith]

variable {b : Text} {c : Char}

theorem suffix_behind {s : Text} (hc : c ∉ s) (h : s <:+ a ++ c :: b) : s <:+ b := by
  have hb : c :: b <:+ a ++ c :: b := suffix_append a _
  cases suffix_or_suffix_of_suffix h hb with
  | inl hs =>
    cases suffix_cons_iff.mp hs with
    | inl heq => exact absurd (heq ▸ mem_cons_self) hc
    | inr hs => exact hs
  | inr hs => exact absurd (hs.subset mem_cons_self) hc

theorem prefix_before {s : Text} (hc : c ∉ s) (h : s <+: a ++ c :: b) : s <+: a := by
  have ha : a ++ [c] <+: a ++ c :: b := ⟨b, by simp⟩
  cases prefix_or_prefix_of_prefix h ha with
  | inl hs =>
    cases prefix_concat_iff.mp hs with
    | inl heq => exact absurd (heq ▸ by simp) hc
    | inr hs => exact hs
  | inr hs => exact absurd (hs.subset (by simp)) hc

theorem trimDots_eq_self (h : text.getLast? = some c) (hc : c ≠ '.') : trimDots text = text := by
  obtain ⟨init, rfl⟩ := List.getLast?_eq_some_iff.mp h
  simp [trimDots, hc]

theorem isFabric_of_endsWith {host : Text} (hstorage : isAzureStorageHost host = true)
    (h : endsWith host fabricSuffix = true) : isFabric (afterLabel host) = true := by
  have hfabric := endsWith_iff.mp h
  have hlast : host.getLast? = some 'm' := by
    obtain ⟨init, rfl⟩ := hfabric
    simp [fabricSuffix]
  obtain ⟨suffix, hsuffix, hends⟩ := any_eq_true.mp hstorage
  rw [endsWith_iff, trimDots_eq_self hlast (by decide), String.toList_append] at hends
  have hdot : '.' ∈ host := hends.subset (by simp)
  have hall : '.' :: fabricSuffix.toList <:+ host := by
    have hshort : ∀ s ∈ azureStorageSuffixes, s ≠ fabricSuffix →
        ¬ s.toList <:+ fabricSuffix.toList ∧ ¬ fabricSuffix.toList <:+ s.toList := by decide
    have hinner : suffix.toList <:+ host := (suffix_cons '.' _).trans hends
    by_cases heq : suffix = fabricSuffix
    · subst heq
      exact hends
    · obtain ⟨hone, hother⟩ := hshort suffix hsuffix heq
      cases suffix_or_suffix_of_suffix hinner hfabric with
      | inl hs => exact absurd hs hone
      | inr hs => exact absurd hs hother
  rw [← labels hdot] at hall
  rw [isFabric, endsWith_iff]
  have hbehind : '.' :: afterLabel host <:+ firstLabel host ++ '.' :: afterLabel host :=
    suffix_append _ _
  cases suffix_or_suffix_of_suffix hall hbehind with
  | inl hs =>
    cases suffix_cons_iff.mp hs with
    | inl heq =>
      injection heq with _ heq
      rw [heq]
    | inr hs => exact (suffix_cons '.' _).trans hs
  | inr hs =>
    obtain ⟨before, hbefore⟩ := hs
    cases before with
    | nil =>
      injection hbefore with _ heq
      rw [heq]
    | cons c before =>
      obtain ⟨first, hfirst⟩ := hall
      rw [← hbefore] at hfirst
      injection hbefore with hc _
      subst hc
      have hsame : first ++ '.' :: before = firstLabel host := by
        have hlong : (first ++ '.' :: before) ++ '.' :: afterLabel host =
            firstLabel host ++ '.' :: afterLabel host := by simpa using hfirst
        exact append_cancel_right hlong
      exact absurd (hsame ▸ by simp) (dot_not_mem_firstLabel host)

theorem endsWith_of_isFabric {host : Text} (hdot : '.' ∈ host)
    (h : isFabric (afterLabel host) = true) : endsWith host fabricSuffix = true := by
  rw [isFabric, endsWith_iff] at h
  rw [endsWith_iff]
  conv => rhs; rw [← labels hdot]
  exact h.trans ((suffix_cons '.' _).trans (suffix_append _ _))

/-- The blob host beside a host, in lower case. -/
def sibling (host : Text) : Text :=
  firstLabel (asciiLower host) ++ '.' :: blobService (afterLabel (asciiLower host))

theorem blobService_dfs (service : Text) :
    blobService ("dfs.".toList ++ service) = "blob.".toList ++ service := by
  rw [blobService]
  have hdrop : ("dfs.".toList ++ service).dropPrefix? "dfs.".toList = some service :=
    List.dropPrefix?_eq_some_iff.mpr ⟨_, rfl, BEq.rfl⟩
  rw [hdrop]

theorem blobService_other {rest : Text} (h : ¬ "dfs.".toList <+: rest) :
    blobService rest = rest := by
  rw [blobService]
  cases hdrop : rest.dropPrefix? "dfs.".toList with
  | none => rfl
  | some service =>
    obtain ⟨first, rfl, hfirst⟩ := List.dropPrefix?_eq_some_iff.mp hdrop
    rw [eq_of_beq hfirst] at h
    exact absurd (prefix_append _ _) h

theorem prefix_swap {p : Text} (hp : ∀ t ∈ p.tails, t ≠ [] → t ≠ ['.'] →
      ¬ t <+: ".sfd.".toList ∧ ¬ ".sfd.".toList <+: t) (h : p <+: a ++ (".sfd.".toList ++ b)) :
    p <+: a ++ (".bolb.".toList ++ b) := by
  cases prefix_or_prefix_of_prefix h (prefix_append a _) with
  | inl hs => exact hs.trans (prefix_append _ _)
  | inr hs =>
    obtain ⟨t, rfl⟩ := hs
    rw [prefix_append_right_inj] at h ⊢
    by_cases hnil : t = []
    · subst hnil
      exact nil_prefix
    · by_cases hdot : t = ['.']
      · subst hdot
        exact ⟨"bolb.".toList ++ b, rfl⟩
      · obtain ⟨hone, hother⟩ := hp t (mem_tails _ _ |>.mpr (suffix_append _ _)) hnil hdot
        cases prefix_or_prefix_of_prefix h (prefix_append ".sfd.".toList b) with
        | inl ht => exact absurd ht hone
        | inr ht => exact absurd ht hother

theorem isAzureStorageHost_swap {account service : Text}
    (h : isAzureStorageHost (account ++ (".dfs.".toList ++ service)) = true) :
    isAzureStorageHost (account ++ (".blob.".toList ++ service)) = true := by
  obtain ⟨suffix, hmem, hends⟩ := any_eq_true.mp h
  refine any_eq_true.mpr ⟨suffix, hmem, ?_⟩
  rw [endsWith_iff, trimDots, ← reverse_prefix, reverse_reverse] at hends ⊢
  have htails : ∀ s ∈ azureStorageSuffixes, ∀ t ∈ (("." ++ s).toList.reverse).tails, t ≠ [] →
      t ≠ ['.'] → ¬ t <+: ".sfd.".toList ∧ ¬ ".sfd.".toList <+: t := by decide
  have hfirst : ∀ s ∈ azureStorageSuffixes, ¬ ['s'] <+: ("." ++ s).toList.reverse ∧
      ("." ++ s).toList.reverse ≠ [] := by decide
  have hdfs : (account ++ (".dfs.".toList ++ service)).reverse =
      service.reverse ++ (".sfd.".toList ++ account.reverse) := by simp
  have hblob : (account ++ (".blob.".toList ++ service)).reverse =
      service.reverse ++ (".bolb.".toList ++ account.reverse) := by simp
  rw [hdfs, dropWhile_append] at hends
  rw [hblob, dropWhile_append]
  split at hends
  · have hs : ['s'] <+: List.dropWhile (fun c => decide (c = '.'))
        (".sfd.".toList ++ account.reverse) := ⟨"fd.".toList ++ account.reverse, rfl⟩
    obtain ⟨hone, hne⟩ := hfirst suffix hmem
    cases prefix_or_prefix_of_prefix hs hends with
    | inl hp => exact absurd hp hone
    | inr hp =>
      cases prefix_cons_iff.mp hp with
      | inl hnil => exact absurd hnil hne
      | inr hp =>
        obtain ⟨more, heq, hmore⟩ := hp
        exact absurd ⟨more, heq.symm⟩ hone
  · rw [if_neg ‹_›]
    exact prefix_swap (htails suffix hmem) hends

theorem isAzureStorageHost_sibling {host : Text} (hdot : '.' ∈ host)
    (h : isAzureStorageHost (asciiLower host) = true) :
    isAzureStorageHost (sibling host) = true := by
  have hsame := labels ((mem_asciiLower (d := '.') (by decide)).mpr hdot)
  rw [sibling]
  by_cases hdfs : "dfs.".toList <+: afterLabel (asciiLower host)
  · obtain ⟨service, hservice⟩ := hdfs
    rw [← hservice] at hsame ⊢
    rw [blobService_dfs]
    rw [← hsame] at h
    exact isAzureStorageHost_swap h
  · rwa [blobService_other hdfs, hsame]

/-- Printable ASCII without blanks and separators. -/
def HostText (text : Text) : Prop := ∀ c ∈ text, 32 < c.toNat ∧ c.toNat < 127 ∧ c ≠ ':' ∧ c ≠ '/'

theorem hostText_append : HostText (a ++ b) ↔ HostText a ∧ HostText b :=
  forall_mem_append

theorem HostText.sublist (h : HostText b) (hab : a.Sublist b) : HostText a :=
  fun c hc => h c (hab.subset hc)

theorem HostText.ascii (h : HostText text) : ∀ c ∈ text, c.toNat < 128 :=
  fun c hc => Nat.lt_succ_of_lt (h c hc).2.1

theorem hostText_asciiLower : HostText (asciiLower text) ↔ HostText text := by
  simp only [HostText, asciiLower, forall_mem_map]
  have hone : ∀ c : Char, (32 < c.toLower.toNat ∧ c.toLower.toNat < 127 ∧ c.toLower ≠ ':' ∧
      c.toLower ≠ '/') ↔ (32 < c.toNat ∧ c.toNat < 127 ∧ c ≠ ':' ∧ c ≠ '/') := by
    intro c
    have hlow : 32 < c.toLower.toNat ↔ 32 < c.toNat := by
      rw [toNat_toLower]
      split_ifs <;> omega
    have hhigh : c.toLower.toNat < 127 ↔ c.toNat < 127 := by
      rw [toNat_toLower]
      split_ifs <;> omega
    rw [hlow, hhigh, Ne, Ne, toLower_eq_iff (by decide), toLower_eq_iff (by decide)]
  constructor
  · intro h c hc
    exact (hone c).mp (h c hc)
  · intro h c hc
    exact (hone c).mpr (h c hc)

theorem HostText.afterLabel {host : Text} (h : HostText host) : HostText (afterLabel host) :=
  h.sublist ((drop_sublist _ _).trans (dropWhile_sublist _))

theorem HostText.firstLabel {host : Text} (h : HostText host) : HostText (firstLabel host) :=
  h.sublist (takeWhile_sublist _)

theorem hostText_sibling {host : Text} (h : HostText host) : HostText (sibling host) := by
  have hlower : HostText (asciiLower host) := hostText_asciiLower.mpr h
  have hservice : HostText (blobService (Storage.afterLabel (asciiLower host))) := by
    by_cases hdfs : "dfs.".toList <+: Storage.afterLabel (asciiLower host)
    · have hafter := hlower.afterLabel
      obtain ⟨service, hservice⟩ := hdfs
      rw [← hservice] at hafter ⊢
      rw [blobService_dfs]
      refine hostText_append.mpr ⟨?_, (hostText_append.mp hafter).2⟩
      simp [HostText]
    · rw [blobService_other hdfs]
      exact hlower.afterLabel
  rw [sibling]
  refine hostText_append.mpr ⟨hlower.firstLabel, ?_⟩
  intro c hc
  cases mem_cons.mp hc with
  | inl hdot =>
    subst hdot
    decide
  | inr hc => exact hservice c hc

/-- Nothing, or a port. -/
def PortText (text : Text) : Prop :=
  text = [] ∨ ∃ port, text = ':' :: port ∧ ∀ c ∈ port, 48 ≤ c.toNat ∧ c.toNat ≤ 57

theorem PortText.plain (h : PortText text) : ∀ c ∈ text, 32 < c.toNat ∧ c.toNat < 127 := by
  cases h with
  | inl hnil => simp [hnil]
  | inr hport =>
    obtain ⟨port, rfl, hdigits⟩ := hport
    intro c hc
    cases mem_cons.mp hc with
    | inl hcolon =>
      subst hcolon
      decide
    | inr hc =>
      have := hdigits c hc
      omega

theorem HostText.plain (h : HostText text) :
    ∀ c ∈ text, 32 < c.toNat ∧ c.toNat < 127 := fun c hc => ⟨(h c hc).1, (h c hc).2.1⟩

theorem dropBoth_eq_self {blank : Char → Bool} (h : ∀ c ∈ text, blank c = false) :
    ((text.dropWhile blank).reverse.dropWhile blank).reverse = text := by
  have hnone : ∀ t : Text, (∀ c ∈ t, blank c = false) → t.dropWhile blank = t := by
    intro t ht
    cases t with
    | nil => rfl
    | cons c t => simp [ht c mem_cons_self]
  rw [hnone text h, hnone text.reverse fun c hc => h c (mem_reverse.mp hc),
    reverse_reverse]

theorem trim_eq_self (h : ∀ c ∈ text, 32 < c.toNat ∧ c.toNat < 127) : trim text = text := by
  apply dropBoth_eq_self
  intro c hc
  have := h c hc
  simp only [isWhitespace, mem_cons, not_mem_nil, or_false, decide_eq_false_iff_not]
  omega

theorem strip_eq_self (h : ∀ c ∈ text, 32 < c.toNat ∧ c.toNat < 127) : strip text = text := by
  apply dropBoth_eq_self
  intro c hc
  have := h c hc
  simp only [isSpace, mem_cons, not_mem_nil, or_false, decide_eq_false_iff_not]
  omega

theorem endpointHost_https {host port : Text} (hhost : HostText host) (hport : PortText port) :
    endpointHost ("https://".toList ++ (host ++ port)) = host := by
  have hpre : withoutPrefix "https://".toList ("https://".toList ++ (host ++ port)) =
      host ++ port := rfl
  have hall : ∀ c ∈ host, (c ≠ ':' && c ≠ '/') = true := by
    intro c hc
    have := hhost c hc
    simp [this.2.2.1, this.2.2.2]
  rw [endpointHost, hpre, takeWhile_append_of_pos hall]
  cases hport with
  | inl hnil => simp [hnil]
  | inr hport =>
    obtain ⟨p, rfl, -⟩ := hport
    simp

variable {casing : Casing} {host port : Text}

theorem withoutPort_append (hhost : HostText host) (hport : PortText port) :
    withoutPort (host ++ port) = host := by
  have hcolon : ':' ∉ host := fun hc => (hhost _ hc).2.2.1 rfl
  cases hport with
  | inl hnil =>
    rw [hnil, append_nil, withoutPort, if_neg hcolon]
  | inr hport =>
    obtain ⟨p, rfl, hdigits⟩ := hport
    have hall : ∀ c ∈ p.reverse, decide (c ≠ ':') = true := by
      intro c hc
      rw [decide_eq_true_iff]
      rintro rfl
      have := hdigits ':' (mem_reverse.mp hc)
      revert this
      decide
    rw [withoutPort, if_pos (by simp), reverse_append, reverse_cons, append_assoc,
      dropWhile_append_of_pos hall]
    simp

theorem isAzureStorageHostport_append (hhost : HostText host) (hport : PortText port) :
    isAzureStorageHostport casing (host ++ port) = isAzureStorageHost (asciiLower host) := by
  rw [isAzureStorageHostport, withoutPort_append hhost hport, strip_eq_self hhost.plain,
    casing.lower_ascii host hhost.ascii]
  rfl

theorem lower_hostport (hhost : HostText host) (hport : PortText port) :
    casing.lower (host ++ port) = asciiLower host ++ asciiLower port := by
  rw [← asciiLower_append]
  refine casing.lower_ascii _ fun c hc => ?_
  cases mem_append.mp hc with
  | inl hc => exact hhost.ascii c hc
  | inr hc => exact Nat.lt_succ_of_lt (hport.plain c hc).2

theorem asciiLower_port (hport : PortText port) : asciiLower port = port := by
  cases hport with
  | inl hnil => rw [hnil]; rfl
  | inr hport =>
    obtain ⟨p, rfl, hdigits⟩ := hport
    have hsame : ∀ c ∈ ':' :: p, c.toLower = c := by
      intro c hc
      cases mem_cons.mp hc with
      | inl hcolon =>
        subst hcolon
        rfl
      | inr hc =>
        apply Char.toNat_inj.mp
        rw [toNat_toLower]
        have := hdigits c hc
        split_ifs <;> omega
    exact (map_congr_left hsame).trans (map_id _)

theorem endsWith_port {last : String} (hlast : ':' ∉ last.toList ∧ ∃ c ∈ last.toList, 57 < c.toNat)
    (hport : PortText port) (hne : port ≠ []) (before : Text) :
    endsWith (before ++ port) last = false := by
  rw [Bool.eq_false_iff, Ne, endsWith_iff]
  intro hsuffix
  obtain ⟨p, rfl, hdigits⟩ := hport.resolve_left hne
  obtain ⟨c, hc, hlarge⟩ := hlast.2
  have := hdigits c ((suffix_behind hlast.1 hsuffix).subset hc)
  omega

theorem isParseable_port (hport : PortText port) (hne : port ≠ []) (before : Text) :
    isParseable (before ++ port) = false := by
  have hlast : ∀ s ∈ parseableAzureSuffixes,
      ':' ∉ s.toList ∧ ∃ c ∈ s.toList, 57 < c.toNat := by decide
  rw [isParseable, any_eq_false]
  intro s hs
  rw [endsWith_port (hlast s hs) hport hne]
  exact Bool.false_ne_true

/-- The swap of the first label leaves the port. -/
theorem blobHost_append (hhost : HostText host) (hport : PortText port) (hdot : '.' ∈ host) :
    ∃ blob, blobHost casing (host ++ port) = blob ++ port ∧ asciiLower blob = sibling host := by
  have hafter : casing.lower (afterLabel (host ++ port)) =
      afterLabel (asciiLower host) ++ port := by
    rw [afterLabel_dotted hdot, lower_hostport hhost.afterLabel hport, asciiLower_port hport,
      afterLabel_asciiLower]
  have hmem : '.' ∈ host ++ port := mem_append_left _ hdot
  rw [blobHost, hafter, sibling]
  by_cases hdfs : "dfs.".toList <+: afterLabel (asciiLower host)
  · have hall : "dfs.".toList.isPrefixOf (afterLabel (asciiLower host) ++ port) = true :=
      isPrefixOf_iff_prefix.mpr (hdfs.trans (prefix_append _ _))
    obtain ⟨service, hservice⟩ := hdfs
    have hlength : 4 ≤ (afterLabel host).length := by
      have := congrArg List.length hservice
      rw [afterLabel_asciiLower, asciiLower, length_map, length_append] at this
      have hfour : "dfs.".toList.length = 4 := rfl
      omega
    refine ⟨firstLabel host ++ ".blob.".toList ++ (afterLabel host).drop 4, ?_, ?_⟩
    · rw [if_pos ⟨hmem, hall⟩, firstLabel_dotted hdot, afterLabel_dotted hdot,
        drop_append_of_le_length hlength, ← append_assoc]
    · have hdrop : asciiLower ((afterLabel host).drop 4) = service := by
        rw [asciiLower, map_drop]
        change (asciiLower (afterLabel host)).drop 4 = service
        rw [← afterLabel_asciiLower, ← hservice]
        rfl
      rw [← hservice, blobService_dfs, asciiLower_append, asciiLower_append, hdrop,
        firstLabel_asciiLower, append_assoc]
      rfl
  · have hnone : ¬ "dfs.".toList.isPrefixOf (afterLabel (asciiLower host) ++ port) = true := by
      rw [List.isPrefixOf_iff_prefix]
      intro h
      cases hport with
      | inl hnil =>
        rw [hnil, append_nil] at h
        exact hdfs h
      | inr hport =>
        obtain ⟨p, rfl, -⟩ := hport
        exact hdfs (prefix_before (by decide) h)
    refine ⟨host, if_neg fun h => hnone h.2, ?_⟩
    rw [blobService_other hdfs, labels ((mem_asciiLower (by decide)).mpr hdot)]

end DeltaSwamp.Storage
