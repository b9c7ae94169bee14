import DeltaSwamp.Storage.Hosts

/-!
# The host an Azure secret goes to

Both implementations send a connection's Azure secret to the host the location names, or refuse.
-/

namespace DeltaSwamp.Storage

open List

/-- A location that names a container at an account's host, in ASCII. -/
structure AtAccount (url : Url) : Prop where
  scheme : url.scheme ∈ accountSchemes
  username : url.username ≠ []
  colon : ':' ∉ url.username
  host : HostText url.host
  dotted : '.' ∈ url.host
  port : ∀ port, url.port = some port → ∀ c ∈ port, 48 ≤ c.toNat ∧ c.toNat ≤ 57

/-- The location has no part that only one of the two goes by. -/
structure Alike (url : Url) : Prop where
  fabric : isFabric (afterLabel (asciiLower url.host)) = true →
    url.port = none ∧ isParseable (asciiLower url.host) = true
  port : url.port ≠ none → isParseable (asciiLower url.host) = true → (parseAzure url).isSome = true
  password : url.password = none ∨ url.port = none ∧ isParseable (asciiLower url.host) = true

/-- Options, ASCII where they count, that name no endpoint and no emulator. -/
structure NoEndpoint (options : Options) : Prop where
  keys : ∀ e ∈ options, ∀ c ∈ e.1, c.toNat < 128
  values : ∀ e ∈ options, asciiLower e.1 ∈ endpointKeys ++ emulatorKeys ++ accountKeys →
    ∀ c ∈ e.2, c.toNat < 128 ∧ ¬ (28 ≤ c.toNat ∧ c.toNat ≤ 31)
  none : hasAzureEndpoint options = false

/-- The options name at most one account, letter case aside. -/
structure OneAccount (options : Options) : Prop where
  blank : ∀ e ∈ options, ∀ e' ∈ options, asciiLower e.1 = asciiLower e'.1 →
    asciiLower e.1 ∈ accountKeys → (trim e.2 = [] ↔ trim e'.2 = [])
  same : ∀ e ∈ options, ∀ e' ∈ options, sets accountKeys e = true → sets accountKeys e' = true →
    asciiLower (trim e.2) = asciiLower (trim e'.2)

/-- The host is Azure Storage's and, Fabric aside, the options' account is its own. -/
def Meant (url : Url) (options : Options) : Prop :=
  isAzureStorageHost (asciiLower url.host) = true ∧
    (isFabric (afterLabel (asciiLower url.host)) = false → ∀ e ∈ options,
      sets accountKeys e = true → asciiLower (trim e.2) = firstLabel (asciiLower url.host))

section
variable {options hashed : Options}

theorem NoEndpoint.perm (h : NoEndpoint options) (hperm : hashed.Perm options) :
    NoEndpoint hashed where
  keys e he := h.keys e (hperm.mem_iff.mp he)
  values e he := h.values e (hperm.mem_iff.mp he)
  none := by
    rw [hasAzureEndpoint, hperm.any_eq]
    exact h.none

theorem OneAccount.perm (h : OneAccount options) (hperm : hashed.Perm options) :
    OneAccount hashed where
  blank e he e' he' := h.blank e (hperm.mem_iff.mp he) e' (hperm.mem_iff.mp he')
  same e he e' he' := h.same e (hperm.mem_iff.mp he) e' (hperm.mem_iff.mp he')

theorem meant_perm {url : Url} (hperm : hashed.Perm options) :
    Meant url hashed ↔ Meant url options := by
  simp only [Meant, hperm.mem_iff]

theorem NoEndpoint.sets_eq_false (h : NoEndpoint options) {e : Text × Text} (he : e ∈ options) :
    sets endpointKeys e = false := by
  have := any_eq_false.mp h.none e he
  simp only [Bool.or_eq_true, not_or, Bool.not_eq_true] at this
  exact this.1

end

section
variable {options : Options} {keys : List Text} {key value : Text}

theorem optionValue_eq_some {v : Text} (h : optionValue options keys = some v) :
    ∃ e ∈ options, sets keys e = true ∧ trim e.2 = v := by
  rw [optionValue, Option.map_eq_some_iff] at h
  obtain ⟨e, hfind, rfl⟩ := h
  exact ⟨e, mem_of_find?_eq_some hfind, List.find?_some hfind, rfl⟩

theorem optionValue_eq_none :
    optionValue options keys = none ↔ ∀ e ∈ options, sets keys e = false := by
  simp [optionValue]

theorem optionValue_set (hkey : asciiLower key ∈ keys) (hvalue : trim value ≠ [])
    (hnone : ∀ e ∈ options, sets keys e = false) :
    optionValue (options.set key value) keys = some (trim value) := by
  have hset : sets keys (key, value) = true := by simp [sets, hkey, hvalue]
  induction options with
  | nil => simp [optionValue, Dict.set, hset]
  | cons e options ih =>
    obtain ⟨k, v⟩ := e
    have hrest := ih fun e he => hnone e (mem_cons_of_mem _ he)
    have hhead := hnone (k, v) mem_cons_self
    rw [Dict.set]
    split_ifs with hsame
    · simp [optionValue, hset]
    · rw [optionValue, List.find?_cons_of_neg (by simp [hhead])]
      exact hrest

theorem optionValue_set_other (hkey : asciiLower key ∉ keys) :
    optionValue (options.set key value) keys = optionValue options keys := by
  have hset : ∀ v, sets keys (key, v) = false := fun v => by simp [sets, hkey]
  induction options with
  | nil => simp [optionValue, Dict.set, hset]
  | cons e options ih =>
    obtain ⟨k, v⟩ := e
    rw [Dict.set]
    split_ifs with hsame
    · subst hsame
      rw [optionValue, optionValue, List.find?_cons_of_neg (by simp [hset]),
        List.find?_cons_of_neg (by simp [hset])]
    · simp only [optionValue, List.find?_cons] at ih ⊢
      split
      · rfl
      · exact ih

end

theorem dropWhile_congr {p q : Char → Bool} {text : Text} (h : ∀ c ∈ text, p c = q c) :
    text.dropWhile p = text.dropWhile q := by
  induction text with
  | nil => rfl
  | cons c text ih =>
    rw [dropWhile_cons, dropWhile_cons, h c mem_cons_self,
      ih fun d hd => h d (mem_cons_of_mem _ hd)]

theorem strip_eq_trim {text : Text}
    (h : ∀ c ∈ text, c.toNat < 128 ∧ ¬ (28 ≤ c.toNat ∧ c.toNat ≤ 31)) :
    strip text = trim text := by
  have hone : ∀ c ∈ text, isSpace c = isWhitespace c := by
    intro c hc
    have := h c hc
    rw [isSpace, isWhitespace, decide_eq_decide]
    simp only [mem_cons, not_mem_nil, or_false]
    omega
  rw [strip, trim, dropWhile_congr hone, dropWhile_congr]
  intro c hc
  exact hone c ((dropWhile_subset _) (mem_reverse.mp hc))

theorem trim_subset (text : Text) : trim text ⊆ text := by
  intro c hc
  have hinner := dropWhile_subset _ (mem_reverse.mp hc)
  exact dropWhile_subset _ (mem_reverse.mp hinner)

variable {casing : Casing} {options : Options} {key value : Text}

theorem NoEndpoint.loweredGet_some (h : NoEndpoint options)
    (hkey : key ∈ endpointKeys ++ emulatorKeys ++ accountKeys)
    (hget : loweredGet casing options key = some value) :
    ∃ e ∈ options, asciiLower e.1 = key ∧ trim e.2 = value ∧ value ≠ [] := by
  rw [loweredGet, Option.filter_eq_some_iff, Option.map_eq_some_iff] at hget
  obtain ⟨⟨v, hget, hstrip⟩, hvalue⟩ := hget
  have hmem := (Dict.mem_update (Dict.mem_of_get hget)).resolve_right not_mem_nil
  obtain ⟨e, he, heq⟩ := mem_map.mp hmem
  injection heq with hlower hv
  have hlower' : asciiLower e.1 = key := by
    rw [← hlower, casing.lower_ascii e.1 (h.keys e he)]
    rfl
  refine ⟨e, he, hlower', ?_, of_decide_eq_true hvalue⟩
  rw [← strip_eq_trim (h.values e he (hlower' ▸ hkey)), hv, hstrip]

theorem mem_keys_update {d entries : Options} {k : Text} :
    k ∈ (d.update entries).map Prod.fst ↔ k ∈ entries.map Prod.fst ∨ k ∈ d.map Prod.fst := by
  induction entries generalizing d with
  | nil => simp [Dict.update]
  | cons e entries ih =>
    have hstep : d.update (e :: entries) = (d.set e.1 e.2).update entries := rfl
    rw [hstep, ih, Dict.mem_keys_set, map_cons, mem_cons]
    tauto

theorem NoEndpoint.loweredGet_isSome (h : NoEndpoint options) (hone : OneAccount options)
    {e : Text × Text} (he : e ∈ options) (hsets : sets accountKeys e = true) :
    (loweredGet casing options (asciiLower e.1)).isSome = true := by
  simp only [sets, Bool.and_eq_true, decide_eq_true_eq] at hsets
  have hkey : asciiLower e.1 ∈ endpointKeys ++ emulatorKeys ++ accountKeys :=
    mem_append_right _ hsets.1
  have hmem : asciiLower e.1 ∈ (loweredOptions casing options).map Prod.fst := by
    refine mem_keys_update.mpr (.inl ?_)
    rw [map_map]
    exact mem_map.mpr ⟨e, he, casing.lower_ascii e.1 (h.keys e he)⟩
  cases hget : (loweredOptions casing options).get (asciiLower e.1) with
  | none => exact absurd hmem (Dict.get_eq_none_iff.mp hget)
  | some v =>
    have hentry := (Dict.mem_update (Dict.mem_of_get hget)).resolve_right not_mem_nil
    obtain ⟨e', he', heq⟩ := mem_map.mp hentry
    injection heq with hlower hv
    have hlower' : asciiLower e'.1 = asciiLower e.1 := by
      rw [← hlower, casing.lower_ascii e'.1 (h.keys e' he')]
      rfl
    have hvalue : trim e'.2 ≠ [] := by
      intro hblank
      exact hsets.2 ((hone.blank e he e' he' hlower'.symm hsets.1).mpr hblank)
    rw [← strip_eq_trim (h.values e' he' (hlower' ▸ hkey)), hv] at hvalue
    simp [loweredGet, hget, hvalue]

theorem NoEndpoint.namesAzureEndpoint (h : NoEndpoint options) :
    namesAzureEndpoint casing options = false := by
  rw [Storage.namesAzureEndpoint, Bool.or_eq_false_iff]
  constructor
  · rw [any_eq_false]
    intro key hkey
    cases hget : loweredGet casing options key with
    | none => simp
    | some value =>
      obtain ⟨e, he, hlower, htrim, hvalue⟩ :=
        h.loweredGet_some (mem_append_left _ (mem_append_left _ hkey)) hget
      have hfalse := h.sets_eq_false he
      simp [sets, hlower, htrim, hvalue, hkey] at hfalse
  · rw [any_eq_false]
    intro key hkey
    have hall : key ∈ endpointKeys ++ emulatorKeys ++ accountKeys :=
      mem_append_left _ (mem_append_right _ hkey)
    cases hget : loweredGet casing options key with
    | none => simp
    | some value =>
      obtain ⟨e, he, hlower, htrim, -⟩ := h.loweredGet_some hall hget
      have hascii : ∀ c ∈ value, c.toNat < 128 := fun c hc =>
        (h.values e he (hlower ▸ hall) c (trim_subset e.2 (htrim ▸ hc))).1
      have hfalse := any_eq_false.mp h.none e he
      simp only [hlower, hkey, htrim, decide_true, Bool.true_and, Bool.or_eq_true,
        decide_eq_true_eq, not_or] at hfalse
      rw [Option.any_some, decide_eq_true_eq, casing.lower_ascii value hascii]
      exact hfalse.2

theorem NoEndpoint.namedAccount_some (h : NoEndpoint options)
    (hnamed : namedAccount casing options = some value) :
    ∃ e ∈ options, sets accountKeys e = true ∧ trim e.2 = value := by
  have hof : ∀ key ∈ accountKeys, loweredGet casing options key = some value →
      ∃ e ∈ options, sets accountKeys e = true ∧ trim e.2 = value := by
    intro key hkey hget
    obtain ⟨e, he, hlower, htrim, hvalue⟩ :=
      h.loweredGet_some (mem_append_right _ hkey) hget
    exact ⟨e, he, by simp [sets, hlower, hkey, htrim, hvalue], htrim⟩
  cases Option.or_eq_some_iff.mp hnamed with
  | inl hget => exact hof azureAccount (by decide) hget
  | inr hget => exact hof "account_name".toList (by decide) hget.2

theorem NoEndpoint.namedAccount_isSome (h : NoEndpoint options) (hone : OneAccount options)
    {e : Text × Text} (he : e ∈ options) (hsets : sets accountKeys e = true) :
    (namedAccount casing options).isSome = true := by
  have hread : (loweredGet casing options (asciiLower e.1)).isSome = true :=
    h.loweredGet_isSome hone he hsets
  have hkeys : accountKeys = [azureAccount, "account_name".toList] := rfl
  have hkey : asciiLower e.1 = azureAccount ∨ asciiLower e.1 = "account_name".toList := by
    simp only [sets, Bool.and_eq_true, decide_eq_true_eq] at hsets
    rw [hkeys, mem_cons, mem_singleton] at hsets
    exact hsets.1
  rw [namedAccount, Option.isSome_or, Bool.or_eq_true]
  cases hkey with
  | inl hkey => exact .inl (hkey ▸ hread)
  | inr hkey => exact .inr (hkey ▸ hread)

/-! ## What is accepted -/

variable {url : Url}

theorem AtAccount.portText (h : AtAccount url) : PortText (url.port.elim [] (':' :: ·)) := by
  cases hport : url.port with
  | none => exact .inl rfl
  | some port => exact .inr ⟨port, rfl, h.port port hport⟩

theorem azureTarget_atAccount (h : AtAccount url) :
    azureTarget url options = qualifiedTarget url options := by
  have hwasb : ∀ s ∈ accountSchemes, s ∉ wasbSchemes := by decide
  rw [azureTarget, if_neg (hwasb _ h.scheme),
    if_pos ⟨h.scheme, h.username, (mem_asciiLower (by decide)).mpr h.dotted⟩]

/-- The extension's options for a location it accepts. -/
def endpointSet (url : Url) (options : Options) : Options :=
  if isFabric (afterLabel (asciiLower url.host)) then options
  else options.set azureEndpoint ("https://".toList ++ sibling url.host)

variable {account : Text}

theorem accountFilter_eq_none {fabric : Bool} (hnone : NoEndpoint options)
    (hone : fabric = false → OneAccount options) (haccount : asciiLower account = account) :
    ((optionValue options accountKeys).filter fun named =>
      !hasAzureEndpoint options && !fabric && asciiLower named ≠ asciiLower account) = none ↔
      (fabric = false → ∀ e ∈ options, sets accountKeys e = true →
        asciiLower (trim e.2) = account) := by
  rw [hnone.none, haccount, Option.filter_eq_none_iff]
  constructor
  · intro h hfabric e he hsets
    subst hfabric
    cases hvalue : optionValue options accountKeys with
    | none => exact absurd hsets (by simp [optionValue_eq_none.mp hvalue e he])
    | some v =>
      obtain ⟨e', he', hsets', rfl⟩ := optionValue_eq_some hvalue
      rw [(hone rfl).same e he e' he' hsets hsets']
      simpa using h _ hvalue
  · intro h v hvalue
    obtain ⟨e, he, hsets, rfl⟩ := optionValue_eq_some hvalue
    cases hfabric : fabric with
    | true => simp
    | false => simp [h hfabric e he hsets]

theorem azureTarget_ok (hat : AtAccount url) (hnone : NoEndpoint options)
    (hone : isFabric (afterLabel (asciiLower url.host)) = false → OneAccount options)
    (hmeant : Meant url options) :
    azureTarget url options = .ok (if isParseable (asciiLower url.host) then
        ⟨url, endpointSet url options⟩
      else ⟨.az url.username url.path, if hasOption options accountKeys then endpointSet url options
        else (endpointSet url options).set azureAccount (firstLabel (asciiLower url.host))⟩) := by
  have hlower : asciiLower (firstLabel (asciiLower url.host)) =
      firstLabel (asciiLower url.host) := by
    rw [← firstLabel_asciiLower, asciiLower_asciiLower]
  have hfilter := (accountFilter_eq_none hnone hone hlower).mpr hmeant.2
  rw [azureTarget_atAccount hat, qualifiedTarget]
  dsimp only
  rw [hfilter, hnone.none, hmeant.1]
  have hendpoint : "https://".toList ++ firstLabel (asciiLower url.host) ++
      '.' :: blobService (afterLabel (asciiLower url.host)) =
      "https://".toList ++ sibling url.host := by
    rw [sibling, append_assoc]
  rw [hendpoint]
  cases hfabric : isFabric (afterLabel (asciiLower url.host)) with
  | true =>
    simp only [endpointSet, hfabric, Bool.not_false, Bool.not_true, Bool.and_false,
      Bool.false_eq_true, if_false, if_true]
    split <;> rfl
  | false =>
    simp only [endpointSet, hfabric, Bool.not_false, Bool.not_true, Bool.and_false, Bool.and_true,
      Bool.false_eq_true, if_false, if_true]
    split <;> rfl

theorem azureTarget_error (hat : AtAccount url) (hnone : NoEndpoint options)
    (hone : isFabric (afterLabel (asciiLower url.host)) = false → OneAccount options)
    (hmeant : ¬ Meant url options) : ∃ r, azureTarget url options = .error r := by
  have hlower : asciiLower (firstLabel (asciiLower url.host)) =
      firstLabel (asciiLower url.host) := by
    rw [← firstLabel_asciiLower, asciiLower_asciiLower]
  rw [azureTarget_atAccount hat, qualifiedTarget]
  dsimp only
  cases hstorage : isAzureStorageHost (asciiLower url.host) with
  | false => exact ⟨.notAzureStorage (asciiLower url.host), by simp [hnone.none]⟩
  | true =>
    have hfilter : ((optionValue options accountKeys).filter fun named =>
        !hasAzureEndpoint options && !isFabric (afterLabel (asciiLower url.host)) &&
          asciiLower named ≠ asciiLower (firstLabel (asciiLower url.host))) ≠ none := by
      intro hfilter
      exact hmeant ⟨hstorage, (accountFilter_eq_none hnone hone hlower).mp hfilter⟩
    obtain ⟨named, hnamed⟩ := Option.ne_none_iff_exists'.mp hfilter
    rw [hnamed, hnone.none]
    exact ⟨_, rfl⟩

theorem lower_fabric (hat : AtAccount url) (halike : Alike url)
    (hstorage : isAzureStorageHost (asciiLower url.host) = true) :
    endsWith (casing.lower url.hostport) fabricSuffix =
      isFabric (afterLabel (asciiLower url.host)) := by
  rw [Url.hostport, lower_hostport hat.host hat.portText, asciiLower_port hat.portText]
  cases hport : url.port with
  | none =>
    have hdot : '.' ∈ asciiLower url.host := (mem_asciiLower (by decide)).mpr hat.dotted
    rw [Option.elim_none, append_nil]
    exact Bool.eq_iff_iff.mpr ⟨isFabric_of_endsWith hstorage, endsWith_of_isFabric hdot⟩
  | some port =>
    have hnot : isFabric (afterLabel (asciiLower url.host)) = false := by
      by_contra hfabric
      have hnone := (halike.fabric (by simpa using hfabric)).1
      rw [hport] at hnone
      cases hnone
    have hlast : ':' ∉ fabricSuffix.toList ∧ ∃ c ∈ fabricSuffix.toList, 57 < c.toNat := by decide
    have htext := hat.portText
    rw [hport, Option.elim_some] at htext
    rw [hnot, Option.elim_some]
    exact endsWith_port hlast htext (cons_ne_nil _ _) _

theorem namedFilter_eq_none {fabric : Bool} (hnone : NoEndpoint options)
    (hone : fabric = false → OneAccount options) :
    ((namedAccount casing options).filter fun named =>
      !fabric && casing.lower named ≠ account) = none ↔
      (fabric = false → ∀ e ∈ options, sets accountKeys e = true →
        asciiLower (trim e.2) = account) := by
  have hlower : ∀ e ∈ options, sets accountKeys e = true →
      casing.lower (trim e.2) = asciiLower (trim e.2) := by
    intro e he hsets
    simp only [sets, Bool.and_eq_true, decide_eq_true_eq] at hsets
    have hkey : asciiLower e.1 ∈ endpointKeys ++ emulatorKeys ++ accountKeys :=
      mem_append_right _ hsets.1
    exact casing.lower_ascii _ fun c hc => (hnone.values e he hkey c (trim_subset _ hc)).1
  rw [Option.filter_eq_none_iff]
  constructor
  · intro h hfabric e he hsets
    subst hfabric
    have hsome : (namedAccount casing options).isSome = true :=
      hnone.namedAccount_isSome (hone rfl) he hsets
    obtain ⟨v, hv⟩ := Option.isSome_iff_exists.mp hsome
    obtain ⟨e', he', hsets', rfl⟩ := hnone.namedAccount_some hv
    rw [(hone rfl).same e he e' he' hsets hsets', ← hlower e' he' hsets']
    simpa using h _ hv
  · intro h v hv
    obtain ⟨e, he, hsets, rfl⟩ := hnone.namedAccount_some hv
    cases hfabric : fabric with
    | true => simp
    | false => simp [hlower e he hsets, h hfabric e he hsets]

theorem lower_firstLabel (hat : AtAccount url) :
    casing.lower (firstLabel url.hostport) = firstLabel (asciiLower url.host) := by
  rw [Url.hostport, firstLabel_dotted hat.dotted, firstLabel_asciiLower]
  exact casing.lower_ascii _ hat.host.firstLabel.ascii

theorem checkAzureHost_ok (hat : AtAccount url) (halike : Alike url) (hnone : NoEndpoint options)
    (hone : isFabric (afterLabel (asciiLower url.host)) = false → OneAccount options)
    (hmeant : Meant url options) : checkAzureHost casing url.hostport options = .ok () := by
  have hstorage : isAzureStorageHostport casing url.hostport =
      isAzureStorageHost (asciiLower url.host) :=
    isAzureStorageHostport_append hat.host hat.portText
  have hfilter : ((namedAccount casing options).filter fun named =>
      !isFabric (afterLabel (asciiLower url.host)) &&
        casing.lower named ≠ firstLabel (asciiLower url.host)) = none :=
    (namedFilter_eq_none hnone hone).mpr hmeant.2
  rw [checkAzureHost, hnone.namesAzureEndpoint, hstorage, hmeant.1]
  dsimp only
  rw [lower_fabric hat halike hmeant.1, lower_firstLabel hat, hfilter]
  rfl

theorem checkAzureHost_error (hat : AtAccount url) (halike : Alike url)
    (hnone : NoEndpoint options)
    (hone : isFabric (afterLabel (asciiLower url.host)) = false → OneAccount options)
    (hmeant : ¬ Meant url options) :
    ∃ r, checkAzureHost casing url.hostport options = .error r := by
  have hstorage : isAzureStorageHostport casing url.hostport =
      isAzureStorageHost (asciiLower url.host) :=
    isAzureStorageHostport_append hat.host hat.portText
  rw [checkAzureHost, hnone.namesAzureEndpoint, hstorage]
  dsimp only
  cases hmine : isAzureStorageHost (asciiLower url.host) with
  | false => exact ⟨_, rfl⟩
  | true =>
    rw [lower_fabric hat halike hmine, lower_firstLabel hat]
    have hfilter : ((namedAccount casing options).filter fun named =>
        !isFabric (afterLabel (asciiLower url.host)) &&
          casing.lower named ≠ firstLabel (asciiLower url.host)) ≠ none := by
      intro hfilter
      exact hmeant ⟨hmine, (namedFilter_eq_none hnone hone).mp hfilter⟩
    obtain ⟨named, hnamed⟩ := Option.ne_none_iff_exists'.mp hfilter
    rw [hnamed]
    exact ⟨_, rfl⟩

theorem NoEndpoint.fill (h : NoEndpoint options)
    (haccount : ∀ c ∈ account, c.toNat < 128 ∧ ¬ (28 ≤ c.toNat ∧ c.toNat ≤ 31)) :
    NoEndpoint (options.fill [(azureAccount, account)]) := by
  have hkey : (∀ c ∈ azureAccount, c.toNat < 128) ∧ asciiLower azureAccount ∉ endpointKeys ∧
      asciiLower azureAccount ∉ emulatorKeys := by decide
  have hmem : ∀ e ∈ options.fill [(azureAccount, account)],
      e = (azureAccount, account) ∨ e ∈ options := by
    intro e he
    simp only [Dict.fill, foldl_cons, foldl_nil] at he
    split at he
    · exact .inr he
    · exact Dict.mem_set he
  constructor
  case keys =>
    intro e he
    cases hmem e he with
    | inl heq => rw [heq]; exact hkey.1
    | inr hin => exact h.keys e hin
  case values =>
    intro e he
    cases hmem e he with
    | inl heq => rw [heq]; exact fun _ => haccount
    | inr hin => exact h.values e hin
  case none =>
    refine any_eq_false.mpr fun e he => ?_
    cases hmem e he with
    | inl heq => simp [heq, sets, hkey.2.1, hkey.2.2]
    | inr hin => exact any_eq_false.mp h.none e hin

theorem isParseable_lower (hat : AtAccount url) :
    isParseable (casing.lower url.hostport) =
      (isParseable (asciiLower url.host) && url.port.isNone) := by
  have htext := hat.portText
  rw [Url.hostport, lower_hostport hat.host htext, asciiLower_port htext]
  cases hport : url.port with
  | none => simp
  | some port =>
    rw [hport, Option.elim_some] at htext
    rw [Option.elim_some, isParseable_port htext (cons_ne_nil _ _)]
    simp

theorem azureStoreLocation_ok (hat : AtAccount url) (halike : Alike url)
    (hnone : NoEndpoint options)
    (hone : isFabric (afterLabel (asciiLower url.host)) = false → OneAccount options)
    (hmeant : Meant url options) :
    azureStoreLocation casing url options =
      .ok (if isParseable (asciiLower url.host) && url.port.isNone then ⟨url, options⟩
        else ⟨.az url.userinfo url.path,
          (options.fill [(azureAccount, firstLabel url.hostport)]).set azureEndpoint
            ("https://".toList ++ blobHost casing url.hostport)⟩) := by
  have huserinfo : url.userinfo ≠ [] := by simp [Url.userinfo, hat.username]
  have hdot : '.' ∈ url.hostport := mem_append_left _ hat.dotted
  have haccount : ∀ c ∈ firstLabel url.hostport,
      c.toNat < 128 ∧ ¬ (28 ≤ c.toNat ∧ c.toNat ≤ 31) := by
    intro c hc
    rw [Url.hostport, firstLabel_dotted hat.dotted] at hc
    have := hat.host.firstLabel c hc
    omega
  have hstorage : isAzureStorageHostport casing url.hostport = true :=
    (isAzureStorageHostport_append hat.host hat.portText).trans hmeant.1
  rw [azureStoreLocation]
  dsimp only
  rw [if_pos ⟨hat.scheme, huserinfo, hdot⟩, checkAzureHost_ok hat halike hnone hone hmeant,
    isParseable_lower hat, (hnone.fill haccount).namesAzureEndpoint, azureEndpointFor,
    if_pos hstorage]
  dsimp only
  split <;> rfl

theorem azureStoreLocation_error (hat : AtAccount url) (halike : Alike url)
    (hnone : NoEndpoint options)
    (hone : isFabric (afterLabel (asciiLower url.host)) = false → OneAccount options)
    (hmeant : ¬ Meant url options) : ∃ r, azureStoreLocation casing url options = .error r := by
  have huserinfo : url.userinfo ≠ [] := by simp [Url.userinfo, hat.username]
  have hdot : '.' ∈ url.hostport := mem_append_left _ hat.dotted
  have hcheck : ∃ r, checkAzureHost casing url.hostport options = .error r :=
    checkAzureHost_error hat halike hnone hone hmeant
  obtain ⟨r, hr⟩ := hcheck
  refine ⟨r, ?_⟩
  rw [azureStoreLocation]
  dsimp only
  rw [if_pos ⟨hat.scheme, huserinfo, hdot⟩, hr]

/-- An address with its host in lower case, as names of hosts are compared. -/
def Address.lowered (a : Address) : Address := { a with host := asciiLower a.host }

/-- The address at the blob host of a location the store can read, else none. -/
def meantAddress (url : Url) : Option Address :=
  if isParseable (asciiLower url.host) && (parseAzure url).isNone then none
  else some ⟨sibling url.host, url.username, url.path⟩

theorem parseAzure_atAccount (hat : AtAccount url) :
    parseAzure url =
      if String.ofList (afterLabel url.host) ∈ parseableAzureSuffixes then
        some ⟨url.username, some (firstLabel url.host), isFabric (afterLabel url.host)⟩
      else none := by
  rw [parseAzure, if_pos hat.scheme, if_neg hat.username]

theorem parseAzure_az {container path : Text} :
    parseAzure (.az container path) = some ⟨container.takeWhile (· ≠ ':'), none, false⟩ := by
  have hnone : (Url.az container path).username = [] := rfl
  rw [parseAzure, if_pos (by simp [Url.az, accountSchemes]), if_pos hnone]
  rfl

theorem asciiLower_sibling (host : Text) : asciiLower (sibling host) = sibling host := by
  have hfirst : asciiLower (firstLabel (asciiLower host)) = firstLabel (asciiLower host) := by
    rw [← firstLabel_asciiLower, asciiLower_asciiLower]
  have hafter : asciiLower (afterLabel (asciiLower host)) = afterLabel (asciiLower host) := by
    rw [← afterLabel_asciiLower, asciiLower_asciiLower]
  have hservice : asciiLower (blobService (afterLabel (asciiLower host))) =
      blobService (afterLabel (asciiLower host)) := by
    by_cases hdfs : "dfs.".toList <+: afterLabel (asciiLower host)
    · obtain ⟨service, hservice⟩ := hdfs
      rw [← hservice, asciiLower_append] at hafter
      rw [← hservice, blobService_dfs, asciiLower_append, append_cancel_left hafter]
      rfl
    · rw [blobService_other hdfs, hafter]
  rw [sibling, asciiLower_append, hfirst]
  congr 1
  exact congrArg ('.' :: ·) hservice

theorem address_default (hat : AtAccount url) (hnone : optionValue options endpointKeys = none) :
    (address ⟨url, options⟩).map Address.lowered =
      if (parseAzure url).isNone then none
      else some ⟨sibling url.host, url.username, url.path⟩ := by
  rw [address, parseAzure_atAccount hat]
  split_ifs with hread hparsed hparsed
  · cases hparsed
  · have hknown : ∀ s ∈ parseableAzureSuffixes, asciiLower s.toList = s.toList ∧
        asciiLower (if isFabric s.toList then ".blob.fabric.microsoft.com"
          else ".blob.core.windows.net").toList = '.' :: blobService s.toList := by decide
    obtain ⟨hlower, hdefault⟩ := hknown _ hread
    rw [String.toList_ofList] at hlower hdefault
    simp only [hnone, Option.bind_eq_bind, Option.bind_some, Option.some_or, Option.map_some,
      Option.pure_def]
    rw [Address.lowered, asciiLower_append, hdefault, sibling, firstLabel_asciiLower,
      afterLabel_asciiLower, hlower]
  · rfl
  · exact absurd rfl hparsed

variable {parsed : Parsed}

theorem address_endpoint {endpoint : Text} (hparsed : parseAzure url = some parsed)
    (hendpoint : optionValue options endpointKeys = some endpoint) :
    address ⟨url, options⟩ = some ⟨endpointHost endpoint, parsed.container, url.path⟩ := by
  simp [address, hparsed, hendpoint]

theorem endpoint_set {host port : Text} (hnone : NoEndpoint options) (hhost : HostText host)
    (hport : PortText port) :
    ∃ endpoint, optionValue (options.set azureEndpoint ("https://".toList ++ (host ++ port)))
        endpointKeys = some endpoint ∧ endpointHost endpoint = host := by
  have hplain : ∀ c ∈ "https://".toList ++ (host ++ port), 32 < c.toNat ∧ c.toNat < 127 := by
    have hscheme : ∀ c ∈ "https://".toList, 32 < c.toNat ∧ c.toNat < 127 := by decide
    intro c hc
    cases mem_append.mp hc with
    | inl hc => exact hscheme c hc
    | inr hc =>
      cases mem_append.mp hc with
      | inl hc => exact hhost.plain c hc
      | inr hc => exact hport.plain c hc
  have htrim := trim_eq_self hplain
  have hvalue : trim ("https://".toList ++ (host ++ port)) ≠ [] := by
    rw [htrim]
    exact cons_ne_nil _ _
  refine ⟨_, optionValue_set (by decide) hvalue fun e he => hnone.sets_eq_false he, ?_⟩
  rw [htrim, endpointHost_https hhost hport]

theorem parsed_container (hat : AtAccount url) (hparsed : parseAzure url = some parsed) :
    parsed.container = url.username := by
  rw [parseAzure_atAccount hat] at hparsed
  split_ifs at hparsed
  cases hparsed
  rfl

theorem address_none (hparsed : parseAzure url = none) : address ⟨url, options⟩ = none := by
  simp [address, hparsed]

theorem container_username (hat : AtAccount url) :
    url.username.takeWhile (· ≠ ':') = url.username := by
  rw [takeWhile_eq_self_iff]
  intro c hc
  simpa using fun heq : c = ':' => hat.colon (heq ▸ hc)

theorem azureTarget_address (hat : AtAccount url) (halike : Alike url) (hnone : NoEndpoint options)
    (hone : isFabric (afterLabel (asciiLower url.host)) = false → OneAccount options)
    (hmeant : Meant url options) :
    ∃ t, azureTarget url options = .ok t ∧ (address t).map Address.lowered = meantAddress url := by
  refine ⟨_, azureTarget_ok hat hnone hone hmeant, ?_⟩
  have hset : ∃ endpoint, optionValue
      (options.set azureEndpoint ("https://".toList ++ sibling url.host)) endpointKeys =
        some endpoint ∧ endpointHost endpoint = sibling url.host := by
    have hempty := endpoint_set hnone (hostText_sibling hat.host) (.inl rfl)
    rwa [append_nil] at hempty
  obtain ⟨endpoint, hendpoint, hhost⟩ := hset
  have hlowered : ∀ container path : Text,
      Address.lowered ⟨sibling url.host, container, path⟩ =
        ⟨sibling url.host, container, path⟩ := by
    intro container path
    rw [Address.lowered, asciiLower_sibling]
  cases hparse : isParseable (asciiLower url.host) with
  | true =>
    rw [if_pos rfl, meantAddress, hparse, Bool.true_and]
    cases hfabric : isFabric (afterLabel (asciiLower url.host)) with
    | true =>
      rw [endpointSet, if_pos hfabric]
      exact address_default hat (optionValue_eq_none.mpr fun e he => hnone.sets_eq_false he)
    | false =>
      rw [endpointSet, hfabric, if_neg Bool.false_ne_true]
      cases hparsed : parseAzure url with
      | none => rw [address_none hparsed]; rfl
      | some parsed =>
        rw [address_endpoint hparsed hendpoint, hhost, parsed_container hat hparsed,
          Option.map_some, hlowered]
        rfl
  | false =>
    have hfabric : ¬ isFabric (afterLabel (asciiLower url.host)) = true := by
      intro hfabric
      rw [(halike.fabric hfabric).2] at hparse
      cases hparse
    have hout : optionValue (if hasOption options accountKeys then endpointSet url options
        else (endpointSet url options).set azureAccount (firstLabel (asciiLower url.host)))
        endpointKeys = some endpoint := by
      rw [endpointSet, if_neg hfabric]
      split
      · exact hendpoint
      · rw [optionValue_set_other (by decide)]
        exact hendpoint
    rw [if_neg Bool.false_ne_true, meantAddress, hparse, Bool.false_and,
      if_neg Bool.false_ne_true, address_endpoint parseAzure_az hout, hhost,
      container_username hat, Option.map_some, hlowered]
    rfl

theorem azureStoreLocation_address (hat : AtAccount url) (halike : Alike url)
    (hnone : NoEndpoint options)
    (hone : isFabric (afterLabel (asciiLower url.host)) = false → OneAccount options)
    (hmeant : Meant url options) :
    ∃ t, azureStoreLocation casing url options = .ok t ∧
      (address t).map Address.lowered = meantAddress url := by
  refine ⟨_, azureStoreLocation_ok hat halike hnone hone hmeant, ?_⟩
  by_cases hkept : (isParseable (asciiLower url.host) && url.port.isNone) = true
  · have hparse : isParseable (asciiLower url.host) = true := (Bool.and_eq_true_iff.mp hkept).1
    rw [if_pos hkept, meantAddress, hparse, Bool.true_and]
    exact address_default hat (optionValue_eq_none.mpr fun e he => hnone.sets_eq_false he)
  · have hmeantSome : (isParseable (asciiLower url.host) && (parseAzure url).isNone) = false := by
      cases hparse : isParseable (asciiLower url.host) with
      | false => rfl
      | true =>
        have hport : url.port ≠ none := by
          intro hport
          exact hkept (by rw [hparse, hport]; rfl)
        have hsome := halike.port hport hparse
        rw [Bool.true_and, Option.isNone_eq_false_iff]
        exact hsome
    have hpassword : url.password = none := by
      cases halike.password with
      | inl hpassword => exact hpassword
      | inr hkind => exact absurd (by rw [hkind.1, hkind.2]; rfl) hkept
    have hhostport : ∃ blob, blobHost casing url.hostport =
        blob ++ url.port.elim [] (':' :: ·) ∧ asciiLower blob = sibling url.host :=
      blobHost_append hat.host hat.portText hat.dotted
    obtain ⟨blob, hblob, hsibling⟩ := hhostport
    have hfilled : NoEndpoint (options.fill [(azureAccount, firstLabel url.hostport)]) := by
      apply hnone.fill
      intro c hc
      rw [Url.hostport, firstLabel_dotted hat.dotted] at hc
      have := hat.host.firstLabel c hc
      omega
    have hplain : HostText blob := by
      rw [← hostText_asciiLower, hsibling]
      exact hostText_sibling hat.host
    obtain ⟨endpoint, hendpoint, hhost⟩ := endpoint_set hfilled hplain hat.portText
    rw [if_neg hkept, meantAddress, hmeantSome, if_neg Bool.false_ne_true, hblob,
      Url.userinfo, hpassword, Option.elim_none, append_nil,
      address_endpoint parseAzure_az hendpoint, hhost, container_username hat, Option.map_some,
      Address.lowered, hsibling]
    rfl

/-! ## Both -/

/-- Both refuse a location, or both lead to the one address at the blob sibling of its own host,
which is Azure Storage's and, Fabric aside, the options' account's. -/
def GoesToAccount (casing : Casing) (url : Url) (options hashed : Options) : Prop :=
  ((∃ r, azureTarget url hashed = .error r) ∧
    ∃ r, azureStoreLocation casing url options = .error r) ∨
  ∃ t t', azureTarget url hashed = .ok t ∧ azureStoreLocation casing url options = .ok t' ∧
    (address t).map Address.lowered = (address t').map Address.lowered ∧
    ∀ a, address t = some a →
      asciiLower a.host = sibling url.host ∧ a.container = url.username ∧ a.path = url.path ∧
      isAzureStorageHost (asciiLower a.host) = true ∧
      (isFabric (afterLabel (asciiLower url.host)) = false → ∀ e ∈ options,
        sets accountKeys e = true → asciiLower (trim e.2) = firstLabel (asciiLower a.host))

theorem atAccount_contacted (casing : Casing) {url : Url} {options hashed : Options}
    (hperm : hashed.Perm options) (hat : AtAccount url) (halike : Alike url)
    (hnone : NoEndpoint options)
    (hone : isFabric (afterLabel (asciiLower url.host)) = false → OneAccount options) :
    GoesToAccount casing url options hashed := by
  have hnone' := hnone.perm hperm
  have hone' := fun hfabric => (hone hfabric).perm hperm
  by_cases hmeant : Meant url options
  · right
    obtain ⟨t, ht, haddress⟩ :=
      azureTarget_address hat halike hnone' hone' ((meant_perm hperm).mpr hmeant)
    have hlibrary : ∃ t, azureStoreLocation casing url options = .ok t ∧
        (address t).map Address.lowered = meantAddress url :=
      azureStoreLocation_address hat halike hnone hone hmeant
    obtain ⟨t', ht', haddress'⟩ := hlibrary
    refine ⟨t, t', ht, ht', haddress.trans haddress'.symm, fun a ha => ?_⟩
    rw [ha, Option.map_some, meantAddress] at haddress
    split_ifs at haddress
    injection haddress with haddress
    have hhost : asciiLower a.host = sibling url.host := congrArg Address.host haddress
    have hlabel : firstLabel (sibling url.host) = firstLabel (asciiLower url.host) := by
      rw [sibling]
      exact firstLabel_append (dot_not_mem_firstLabel _) _
    refine ⟨hhost, congrArg Address.container haddress, congrArg Address.path haddress, ?_, ?_⟩
    · rw [hhost]
      exact isAzureStorageHost_sibling hat.dotted hmeant.1
    · rw [hhost, hlabel]
      exact hmeant.2
  · left
    exact ⟨azureTarget_error hat hnone' hone' fun h => hmeant ((meant_perm hperm).mp h),
      azureStoreLocation_error hat halike hnone hone hmeant⟩

/-- A location that names no account's host. -/
def NamesNoHost (url : Url) : Prop :=
  url.scheme ∉ accountSchemes ∨ url.userinfo = [] ∨ '.' ∉ url.hostport

theorem azureTarget_namesNoHost (hnone : NoEndpoint options) (hurl : NamesNoHost url) :
    ∃ r, azureTarget url options = .error r := by
  have hnot : ¬ (url.scheme ∈ accountSchemes ∧ url.username ≠ [] ∧ '.' ∈ asciiLower url.host) := by
    rintro ⟨hscheme, husername, hdot⟩
    rw [mem_asciiLower (by decide)] at hdot
    cases hurl with
    | inl hother => exact hother hscheme
    | inr hurl =>
      cases hurl with
      | inl hempty => exact husername (append_eq_nil_iff.mp hempty).1
      | inr hnodot => exact hnodot (mem_append_left _ hdot)
  rw [azureTarget, if_neg hnot, hnone.none]
  split
  · exact ⟨_, rfl⟩
  · exact ⟨_, rfl⟩

theorem azureStoreLocation_namesNoHost (hurl : NamesNoHost url) :
    azureStoreLocation casing url options = .ok ⟨url, options⟩ := by
  have hnot : ¬ (url.scheme ∈ accountSchemes ∧ url.userinfo ≠ [] ∧ '.' ∈ url.hostport) := by
    rintro ⟨hscheme, huserinfo, hdot⟩
    cases hurl with
    | inl hother => exact hother hscheme
    | inr hurl =>
      cases hurl with
      | inl hempty => exact huserinfo hempty
      | inr hnodot => exact hnodot hdot
  rw [azureStoreLocation]
  dsimp only
  rw [if_neg hnot]

theorem parsed_namesNoHost (hurl : NamesNoHost url) (hparsed : parseAzure url = some parsed) :
    parsed.account = none ∧ parsed.fabric = false := by
  rw [parseAzure] at hparsed
  split_ifs at hparsed with hscheme husername hread hother
  · cases hparsed
    exact ⟨rfl, rfl⟩
  · have hempty : String.ofList [] ∉ parseableAzureSuffixes := by decide
    exfalso
    cases hurl with
    | inl hother => exact hother hscheme
    | inr hurl =>
      cases hurl with
      | inl huserinfo => exact husername (append_eq_nil_iff.mp huserinfo).1
      | inr hnodot =>
        have hall : ∀ c ∈ url.host, decide (c ≠ '.') = true := by
          intro c hc
          simpa using fun heq : c = '.' => hnodot (mem_append_left _ (heq ▸ hc))
        rw [afterLabel, dropWhile_eq_nil_iff.mpr hall, drop_nil] at hread
        exact hempty hread
  · cases hparsed
    exact ⟨rfl, rfl⟩

theorem address_namesNoHost (hnone : NoEndpoint options) (hurl : NamesNoHost url) {a : Address}
    (ha : address ⟨url, options⟩ = some a) :
    ∃ e ∈ options, sets accountKeys e = true ∧
      a.host = trim e.2 ++ ".blob.core.windows.net".toList := by
  cases hparsed : parseAzure url with
  | none =>
    rw [address_none hparsed] at ha
    cases ha
  | some parsed =>
    obtain ⟨haccount, hfabric⟩ := parsed_namesNoHost hurl hparsed
    have hendpoint : optionValue options endpointKeys = none :=
      optionValue_eq_none.mpr fun e he => hnone.sets_eq_false he
    cases hvalue : optionValue options accountKeys with
    | none => simp [address, hparsed, hendpoint, haccount, hvalue] at ha
    | some account =>
      obtain ⟨e, he, hsets, rfl⟩ := optionValue_eq_some hvalue
      refine ⟨e, he, hsets, ?_⟩
      simp only [address, hparsed, hendpoint, haccount, hfabric, hvalue, Option.bind_eq_bind,
        Option.bind_some, Option.none_or, Option.map_some, Option.pure_def,
        Bool.false_eq_true, if_false, Option.some.injEq] at ha
      rw [← ha]

/-- An Azure secret, where the caller names no endpoint: at an account's host both refuse or both
lead to its blob host; any other location the extension refuses and the library leaves as it is,
to the default host of the account in the options. -/
theorem secret_contacts (casing : Casing) {url : Url} {options hashed : Options}
    (hperm : hashed.Perm options) (hnone : NoEndpoint options) :
    (AtAccount url → Alike url →
      (isFabric (afterLabel (asciiLower url.host)) = false → OneAccount options) →
      GoesToAccount casing url options hashed) ∧
    (NamesNoHost url →
      (∃ r, azureTarget url hashed = .error r) ∧
      azureStoreLocation casing url options = .ok ⟨url, options⟩ ∧
      ∀ a, address ⟨url, options⟩ = some a → ∃ e ∈ options, sets accountKeys e = true ∧
        a.host = trim e.2 ++ ".blob.core.windows.net".toList) := by
  constructor
  · intro hat halike hone
    exact atAccount_contacted casing hperm hat halike hnone hone
  · intro hurl
    exact ⟨azureTarget_namesNoHost (hnone.perm hperm) hurl, azureStoreLocation_namesNoHost hurl,
      fun a ha => address_namesNoHost hnone hurl ha⟩

/-- `az://data/table`, which names no host. -/
def bareTable : Url := .az "data".toList "/table".toList

/-- `abfss://data@acct.dfs.core.windows.net/table` -/
def accountTable : Url where
  scheme := "abfss".toList
  username := "data".toList
  password := none
  host := "acct.dfs.core.windows.net".toList
  port := none
  path := "/table".toList

def accountOptions : Options := [("account_name".toList, "acct".toList)]

theorem secret_contacts_accountOptions :
    (∃ t t', azureTarget accountTable accountOptions = .ok t ∧
      azureStoreLocation asciiCasing accountTable accountOptions = .ok t' ∧
      (address t).map Address.lowered = (address t').map Address.lowered) ∧
    ∃ r, azureTarget bareTable accountOptions = .error r := by
  have hnone : NoEndpoint accountOptions :=
    { keys := by decide
      values := by decide
      none := by decide }
  have hone : OneAccount accountOptions :=
    { blank := by decide
      same := by decide }
  have hat : AtAccount accountTable :=
    { scheme := by decide
      username := by decide
      colon := by decide
      host := by
        rw [HostText]
        decide
      dotted := by decide
      port := fun _ hport => by cases hport }
  have halike : Alike accountTable :=
    { fabric := by decide
      port := fun hport => absurd rfl hport
      password := .inl rfl }
  have hboth := @secret_contacts asciiCasing accountTable _ _ (List.Perm.refl accountOptions) hnone
  have hbare := @secret_contacts asciiCasing bareTable _ _ (List.Perm.refl accountOptions) hnone
  constructor
  · cases hboth.1 hat halike fun _ => hone with
    | inl hrefused =>
      obtain ⟨⟨r, hr⟩, -⟩ := hrefused
      cases hr
    | inr hserved =>
      obtain ⟨t, t', ht, ht', haddress, -⟩ := hserved
      exact ⟨t, t', ht, ht', haddress⟩
  · exact (hbare.2 (.inr (.inl rfl))).1

/-- A Fabric host the store cannot read. -/
def dedicatedTable : Url :=
  { accountTable with host := "ws.pbidedicated.fabric.microsoft.com".toList }

/-- A Fabric host with its port. -/
def portedTable : Url :=
  { accountTable with host := "ws.dfs.fabric.microsoft.com".toList, port := some "443".toList }

/-- A host with a label too many, and its port. -/
def nestedTable : Url :=
  { accountTable with host := "my.acct.dfs.core.windows.net".toList, port := some "8443".toList }

/-- A password beside a port. -/
def secretTable : Url :=
  { accountTable with password := some "secret".toList, port := some "8443".toList }

/-- A location without a host is refused by one only; a Fabric host the store cannot read, one with
a port, another host it cannot read with a port, and a password beside a port are read differently;
of two accounts each may see the other one. -/
theorem contacts_differ :
    (azureTarget bareTable [("account_name".toList, "acct".toList)] = .error .noEndpoint ∧
      (azureStoreLocation asciiCasing bareTable [("account_name".toList, "acct".toList)]).map
        address = .ok (some ⟨"acct.blob.core.windows.net".toList, "data".toList,
          "/table".toList⟩)) ∧
    ((azureTarget dedicatedTable []).map address =
        .ok (some ⟨"ws.blob.core.windows.net".toList, "data".toList, "/table".toList⟩) ∧
      (azureStoreLocation asciiCasing dedicatedTable []).map address =
        .ok (some ⟨dedicatedTable.host, "data".toList, "/table".toList⟩)) ∧
    (azureTarget portedTable [("account_name".toList, "acct".toList)] =
        .ok ⟨portedTable, [("account_name".toList, "acct".toList)]⟩ ∧
      azureStoreLocation asciiCasing portedTable [("account_name".toList, "acct".toList)] =
        .error (.otherAccount "ws".toList "acct".toList)) ∧
    ((azureTarget nestedTable []).map address = .ok none ∧
      (azureStoreLocation asciiCasing nestedTable []).map address =
        .ok (some ⟨nestedTable.host, "data".toList, "/table".toList⟩)) ∧
    ((azureTarget secretTable []).map Target.url = .ok secretTable ∧
      (azureStoreLocation asciiCasing secretTable []).map (fun target => target.url.port) =
        .ok (some "secret".toList)) ∧
    (azureTarget accountTable [("account_name".toList, "other".toList),
        ("azure_storage_account_name".toList, "acct".toList)] =
        .error (.otherAccount "acct".toList "other".toList) ∧
      (azureStoreLocation asciiCasing accountTable [("account_name".toList, "other".toList),
        ("azure_storage_account_name".toList, "acct".toList)]).map address =
        .ok (some ⟨"acct.blob.core.windows.net".toList, "data".toList, "/table".toList⟩)) := by
  refine ⟨⟨?_, ?_⟩, ⟨?_, ?_⟩, ⟨?_, ?_⟩, ⟨?_, ?_⟩, ⟨?_, ?_⟩, ?_, ?_⟩ <;> rfl

end DeltaSwamp.Storage
