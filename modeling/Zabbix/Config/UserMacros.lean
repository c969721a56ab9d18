import Zabbix.Library.Ascii
import Zabbix.Library.Identifiers
import Zabbix.Library.Reachability

/-!
# User macros

`DCget_user_macro` looks a macro up on the hosts it is given, then on their templates, then on
the templates of these, one level of the linkage after the other, and at last among the global
macros.  Without cycles in the linkage the search ends, and the macro has the value of the first
host, or of the template with the smallest identifier among the nearest ones.
-/

namespace UserMacros

/-- The parts of the configuration cache that are read: `hmacros_hm`, `htmpls` and
`gmacros_m`. -/
structure MacroCache where
  hmacros : UInt64 → Bytes → Option Bytes
  htmpls : UInt64 → Option (List UInt64)
  gmacros : Bytes → Option Bytes

/-- The templates a host or a template is linked to. -/
def MacroCache.templates (cache : MacroCache) (hostid : UInt64) : List UInt64 :=
  (cache.htmpls hostid).getD []

/-! ### Loading the linkage -/

/-- The state of the loop of `DCsync_htmpls`. -/
structure HtmplSync where
  hostid : UInt64
  ids : List UInt64
  htmpls : UInt64 → Option (List UInt64)

/-- One row of `hosts_templates`: the vector of a new host is created or cleared. -/
def HtmplSync.next (s : HtmplSync) (row : UInt64 × UInt64) : HtmplSync :=
  let s := if s.hostid ≠ row.1 ∨ 0 = s.hostid then
      { hostid := row.1, ids := s.ids ++ [row.1],
        htmpls := Function.update s.htmpls row.1 (some []) }
    else s
  { s with
    htmpls := Function.update s.htmpls s.hostid
      (some ((s.htmpls s.hostid).getD [] ++ [row.2])) }

/-- `DCsync_htmpls`: hosts without a row are removed. -/
def syncHtmpls (htmpls : UInt64 → Option (List UInt64)) (rows : List (UInt64 × UInt64)) :
    UInt64 → Option (List UInt64) :=
  let s := rows.foldl HtmplSync.next { hostid := 0, ids := [], htmpls := htmpls }
  fun hostid => if bsearch s.ids hostid then s.htmpls hostid else none

/-- The templates of a host in the rows of `hosts_templates`. -/
def templatesOf (rows : List (UInt64 × UInt64)) (hostid : UInt64) : List UInt64 :=
  (rows.filter fun row => row.1 = hostid).map (·.2)

theorem templatesOf_eq_nil {rows : List (UInt64 × UInt64)} {hostid : UInt64}
    (h : hostid ∉ rows.map (·.1)) :
  templatesOf rows hostid = []
  := by
  rw [templatesOf, List.map_eq_nil_iff, List.filter_eq_nil_iff]
  intro row hrow heq
  exact h (List.mem_map.mpr ⟨row, hrow, of_decide_eq_true heq⟩)

/-- The hosts of the rows read so far have their templates, and the last one comes last. -/
structure HtmplSync.Done (s : HtmplSync) (rows : List (UInt64 × UInt64)) : Prop where
  ids_iff : ∀ h, h ∈ s.ids ↔ h ∈ rows.map (·.1)
  sorted : s.ids.Pairwise (· ≤ ·)
  last : ∀ h ∈ s.ids, h ≤ s.hostid
  current : s.hostid = 0 ∨ s.hostid ∈ s.ids
  lists : ∀ h ∈ s.ids, s.htmpls h = some (templatesOf rows h)

theorem HtmplSync.Done.next {s : HtmplSync} {rows : List (UInt64 × UInt64)} (h : s.Done rows)
    {row : UInt64 × UInt64} (hrows : ∀ r ∈ rows, r.1 ≤ row.1) (hrow : row.1 ≠ 0) :
  (s.next row).Done (rows ++ [row])
  := by
  have hbelow : ∀ id ∈ s.ids, id ≤ row.1 := by
    intro id hid
    obtain ⟨r, hr, rfl⟩ := List.mem_map.mp ((h.ids_iff id).mp hid)
    exact hrows r hr
  have hself : templatesOf (rows ++ [row]) row.1 = templatesOf rows row.1 ++ [row.2] := by
    simp [templatesOf]
  have hother : ∀ id ≠ row.1, templatesOf (rows ++ [row]) id = templatesOf rows id := by
    intro id hid
    simp [templatesOf, hid.symm]
  unfold HtmplSync.next
  by_cases hnew : s.hostid ≠ row.1 ∨ 0 = s.hostid
  · -- the rows come in the order of the hosts, so that the host has not been met before
    have hfresh : row.1 ∉ s.ids := by
      intro hmem
      have hle := h.last _ hmem
      obtain hzero | hcurrent := h.current
      · rw [hzero] at hle
        exact hrow (UInt64.le_zero_iff.mp hle)
      · have heq := le_antisymm (hbelow _ hcurrent) hle
        obtain hne | hzero := hnew
        · exact hne heq
        · exact hrow (heq.symm.trans hzero.symm)
    have hempty := templatesOf_eq_nil ((h.ids_iff row.1).not.mp hfresh)
    rw [if_pos hnew]
    refine ⟨?_, ?_, ?_, ?_, ?_⟩
    · intro id
      simp [h.ids_iff]
    · rw [List.pairwise_append]
      refine ⟨h.sorted, List.pairwise_singleton _ _, ?_⟩
      intro id hid id' hid'
      rw [List.mem_singleton.mp hid']
      exact hbelow id hid
    · intro id hid
      obtain hid | hid := List.mem_append.mp hid
      · exact hbelow id hid
      · exact le_of_eq (List.mem_singleton.mp hid)
    · exact .inr (List.mem_append_right _ List.mem_cons_self)
    · intro id hid
      dsimp only
      by_cases heq : id = row.1
      · subst heq
        simp [hself, hempty]
      · rw [Function.update_of_ne heq, Function.update_of_ne heq, hother id heq]
        obtain hid | hid := List.mem_append.mp hid
        · exact h.lists id hid
        · exact absurd (List.mem_singleton.mp hid) heq
  · rw [if_neg hnew]
    obtain ⟨heq, hzero⟩ := not_or.mp hnew
    rw [not_not] at heq
    have hmem : row.1 ∈ s.ids := by
      rw [← heq]
      exact h.current.resolve_left (Ne.symm hzero)
    refine ⟨?_, h.sorted, h.last, h.current, ?_⟩
    · intro id
      rw [h.ids_iff, List.map_append, List.mem_append, List.map_singleton,
        List.mem_singleton]
      constructor
      · exact .inl
      · rintro (hid | rfl)
        · exact hid
        · exact (h.ids_iff _).mp hmem
    · intro id hid
      dsimp only
      rw [heq]
      by_cases hid' : id = row.1
      · subst hid'
        rw [Function.update_self, hself, h.lists _ hmem, Option.getD_some]
      · rw [Function.update_of_ne hid', hother id hid']
        exact h.lists id hid

/-- After loading, the linkage is that of the rows, whatever it was before. -/
theorem syncHtmpls_templates (htmpls : UInt64 → Option (List UInt64))
    {rows : List (UInt64 × UInt64)} (hordered : rows.Pairwise fun row row' => row.1 ≤ row'.1)
    (hpositive : ∀ row ∈ rows, row.1 ≠ 0) (hostid : UInt64) :
  (syncHtmpls htmpls rows hostid).getD [] = templatesOf rows hostid
  := by
  have hdone : (rows.foldl HtmplSync.next { hostid := 0, ids := [], htmpls := htmpls }).Done
      rows := by
    induction rows using List.reverseRecOn with
    | nil => exact ⟨by simp, List.Pairwise.nil, by simp, .inl rfl, by simp⟩
    | append_singleton rows row ih =>
      obtain ⟨hrows, -, hlast⟩ := List.pairwise_append.mp hordered
      rw [List.foldl_concat]
      exact (ih hrows fun r hr => hpositive r (List.mem_append_left _ hr)).next
        (fun r hr => hlast r hr row List.mem_cons_self) (hpositive row (by simp))
  rw [syncHtmpls]
  dsimp only
  by_cases hmem : hostid ∈ (rows.foldl HtmplSync.next
      { hostid := 0, ids := [], htmpls := htmpls }).ids
  · rw [if_pos ((bsearch_iff hdone.sorted hostid).mpr hmem), hdone.lists hostid hmem]
    rfl
  · rw [if_neg fun hfound => hmem ((bsearch_iff hdone.sorted hostid).mp hfound)]
    exact (templatesOf_eq_nil ((hdone.ids_iff hostid).not.mp hmem)).symm

/-! ### The search -/

/-- The loop of `DCget_host_macro` over the hosts: the value of the macro, or the templates
collected. -/
def scanHosts (cache : MacroCache) (macroName : Bytes) :
    List UInt64 → List UInt64 → Bytes ⊕ List UInt64
  | [], templateids => .inr templateids
  | hostid :: hostids, templateids =>
    match cache.hmacros hostid macroName with
    | some value => .inl value
    | none => scanHosts cache macroName hostids (templateids ++ cache.templates hostid)

/-- `DCget_host_macro`, with at most `levels` levels of recursion; a level that ends without a
value is `some none`. -/
def getHostMacro (cache : MacroCache) (macroName : Bytes) :
    ℕ → List UInt64 → Option (Option Bytes)
  | 0, _ => none
  | levels + 1, hostids =>
    if hostids = [] then some none
    else
      match scanHosts cache macroName hostids [] with
      | .inl value => some (some value)
      | .inr templateids =>
        if templateids ≠ [] then
          getHostMacro cache macroName levels (sortIds templateids)
        else some none

/-- `DCget_global_macro`. -/
def getGlobalMacro (cache : MacroCache) (macroName replaceTo : Bytes) : Bytes :=
  (cache.gmacros macroName).getD replaceTo

/-- `DCget_user_macro`: what becomes of the text `replace_to` of the caller. -/
def getUserMacro (cache : MacroCache) (levels : ℕ) (hostids : List UInt64)
    (macroName replaceTo : Bytes) : Option Bytes :=
  (getHostMacro cache macroName levels hostids).map fun
    | some value => value
    | none => getGlobalMacro cache macroName replaceTo

/-! ### Precedence -/

/-- A template is at the end of that many links from a host. -/
def Links (cache : MacroCache) : ℕ → UInt64 → UInt64 → Prop
  | 0, hostid, templateid => hostid = templateid
  | n + 1, hostid, templateid =>
    ∃ linked ∈ cache.templates hostid, Links cache n linked templateid

/-- A template is at the end of that many links from a host of the list. -/
def Reached (cache : MacroCache) (hostids : List UInt64) (n : ℕ) (templateid : UInt64) : Prop :=
  ∃ hostid ∈ hostids, Links cache n hostid templateid

/-- The template has the macro, no template at a smaller distance has it, and none at this
distance with a smaller identifier. -/
structure Nearest (cache : MacroCache) (macroName : Bytes) (hostids : List UInt64) (n : ℕ)
    (templateid : UInt64) (value : Bytes) : Prop where
  reached : Reached cache hostids n templateid
  value_eq : cache.hmacros templateid macroName = some value
  nearest : ∀ m t, Reached cache hostids m t → (cache.hmacros t macroName).isSome → n ≤ m
  smallest : ∀ t, Reached cache hostids n t → (cache.hmacros t macroName).isSome →
    templateid ≤ t

/-- What a macro stands for. -/
inductive Resolves (cache : MacroCache) (hostids : List UInt64) (macroName replaceTo : Bytes) :
    Bytes → Prop where
  | host {before after : List UInt64} {hostid : UInt64} {value : Bytes}
      (hhosts : hostids = before ++ hostid :: after)
      (hbefore : ∀ h ∈ before, cache.hmacros h macroName = none)
      (hvalue : cache.hmacros hostid macroName = some value) :
      Resolves cache hostids macroName replaceTo value
  | template {n : ℕ} {templateid : UInt64} {value : Bytes}
      (hhosts : ∀ h ∈ hostids, cache.hmacros h macroName = none)
      (hnearest : Nearest cache macroName hostids n templateid value) :
      Resolves cache hostids macroName replaceTo value
  | global {value : Bytes}
      (hnone : ∀ n t, Reached cache hostids n t → cache.hmacros t macroName = none)
      (hvalue : cache.gmacros macroName = some value) :
      Resolves cache hostids macroName replaceTo value
  | unchanged (hnone : ∀ n t, Reached cache hostids n t → cache.hmacros t macroName = none)
      (hglobal : cache.gmacros macroName = none) :
      Resolves cache hostids macroName replaceTo replaceTo

section

variable {cache : MacroCache} {macroName replaceTo value : Bytes} {hostids : List UInt64}

@[simp]
theorem reached_zero {t : UInt64} :
  Reached cache hostids 0 t ↔ t ∈ hostids
  := by
  simp [Reached, Links]

/-- One link further from the hosts is a level nearer to their templates. -/
theorem reached_succ {n : ℕ} {t : UInt64} :
  Reached cache hostids (n + 1) t ↔
    Reached cache (sortIds (hostids.flatMap cache.templates)) n t
  := by
  simp only [Reached, Links, mem_sortIds, List.mem_flatMap]
  constructor
  · rintro ⟨h, hh, u, hu, hlinks⟩
    exact ⟨u, ⟨h, hh, hu⟩, hlinks⟩
  · rintro ⟨u, ⟨h, hh, hu⟩, hlinks⟩
    exact ⟨h, hh, u, hu, hlinks⟩

/-- The first host with the macro, or the templates of all hosts. -/
theorem scanHosts_eq (hostids templateids : List UInt64) :
  scanHosts cache macroName hostids templateids =
    match hostids.findSome? fun h => cache.hmacros h macroName with
    | some value => .inl value
    | none => .inr (templateids ++ hostids.flatMap cache.templates)
  := by
  induction hostids generalizing templateids with
  | nil => simp [scanHosts]
  | cons hostid hostids ih =>
    rw [scanHosts, List.findSome?_cons]
    cases cache.hmacros hostid macroName with
    | some value => rfl
    | none =>
      dsimp only
      rw [ih, List.flatMap_cons, List.append_assoc]

/-- One level of the search. -/
theorem getHostMacro_succ (levels : ℕ) (hostids : List UInt64) :
  getHostMacro cache macroName (levels + 1) hostids =
    match hostids.findSome? fun h => cache.hmacros h macroName with
    | some value => some (some value)
    | none =>
      if hostids.flatMap cache.templates = [] then some none
      else getHostMacro cache macroName levels
        (sortIds (hostids.flatMap cache.templates))
  := by
  rw [getHostMacro]
  by_cases hnil : hostids = []
  · simp [hnil]
  · rw [if_neg hnil, scanHosts_eq, List.nil_append]
    cases hostids.findSome? fun h => cache.hmacros h macroName with
    | some value => rfl
    | none =>
      dsimp only
      rw [ite_not]

/-- More levels change nothing once the search has returned. -/
theorem getHostMacro_mono {levels levels' : ℕ} {result : Option Bytes}
    (h : getHostMacro cache macroName levels hostids = some result) (hle : levels ≤ levels') :
  getHostMacro cache macroName levels' hostids = some result
  := by
  induction levels generalizing hostids levels' with
  | zero => cases h
  | succ levels ih =>
    obtain ⟨levels', rfl⟩ := Nat.exists_eq_succ_of_ne_zero (Nat.ne_zero_of_lt hle)
    rw [getHostMacro_succ] at h ⊢
    split at h
    · exact h
    · split_ifs at h ⊢
      · exact h
      · exact ih h (Nat.le_of_succ_le_succ hle)

/-- In a sorted list the first host with the macro is the one with the smallest identifier. -/
theorem nearest_of_findSome (hsorted : hostids.Pairwise (· ≤ ·))
    (hfind : (hostids.findSome? fun h => cache.hmacros h macroName) = some value) :
  ∃ t, Nearest cache macroName hostids 0 t value
  := by
  obtain ⟨before, t, after, rfl, hvalue, hbefore⟩ := List.findSome?_eq_some_iff.mp hfind
  refine ⟨t, by simp, hvalue, fun _ _ _ _ => Nat.zero_le _, ?_⟩
  intro u hu hsome
  rw [reached_zero, List.mem_append, List.mem_cons] at hu
  obtain hu | rfl | hu := hu
  · rw [hbefore u hu] at hsome
    cases hsome
  · exact le_refl u
  · exact (List.pairwise_cons.mp (List.pairwise_append.mp hsorted).2.1).1 u hu

/-- A nearest template of the next level, when no host of this level has the macro. -/
theorem Nearest.succ {n : ℕ} {t : UInt64}
    (hnone : ∀ h ∈ hostids, cache.hmacros h macroName = none)
    (h : Nearest cache macroName (sortIds (hostids.flatMap cache.templates)) n t
      value) :
  Nearest cache macroName hostids (n + 1) t value
  where
  reached := reached_succ.mpr h.reached
  value_eq := h.value_eq
  nearest := by
    intro m u hu hsome
    cases m with
    | zero =>
      rw [hnone u (reached_zero.mp hu)] at hsome
      cases hsome
    | succ m => exact Nat.succ_le_succ (h.nearest m u (reached_succ.mp hu) hsome)
  smallest := fun u hu hsome => h.smallest u (reached_succ.mp hu) hsome

/-- What the search over the levels finds when it has started with no value on the hosts. -/
def Outcome (cache : MacroCache) (macroName : Bytes) (hostids : List UInt64) :
    Option Bytes → Prop
  | some value => ∃ n t, Nearest cache macroName hostids n t value
  | none => ∀ n t, Reached cache hostids n t → cache.hmacros t macroName = none

theorem Outcome.succ {result : Option Bytes}
    (hnone : ∀ h ∈ hostids, cache.hmacros h macroName = none)
    (h : Outcome cache macroName (sortIds (hostids.flatMap cache.templates))
      result) :
  Outcome cache macroName hostids result
  := by
  cases result with
  | some value =>
    obtain ⟨n, t, hnearest⟩ := h
    exact ⟨n + 1, t, hnearest.succ hnone⟩
  | none =>
    intro n t ht
    cases n with
    | zero => exact hnone t (reached_zero.mp ht)
    | succ n => exact h n t (reached_succ.mp ht)

/-- Without templates only the hosts are reached. -/
theorem outcome_none_of_nil (hnone : ∀ h ∈ hostids, cache.hmacros h macroName = none)
    (hnil : hostids.flatMap cache.templates = []) :
  Outcome cache macroName hostids none
  := by
  apply Outcome.succ hnone
  rw [hnil]
  rintro n t ⟨h, hh, -⟩
  cases hh

variable (macroName) in
/-- The search of a sorted level ends when the paths from it are bounded. -/
theorem getHostMacro_sorted {levels : ℕ} (hsorted : hostids.Pairwise (· ≤ ·))
    (hbounded : ∀ h ∈ hostids, PathsBounded cache.templates levels h) :
  ∃ result, getHostMacro cache macroName (levels + 1) hostids = some result ∧
    Outcome cache macroName hostids result
  := by
  induction levels generalizing hostids with
  | zero =>
    have hnil : hostids.flatMap cache.templates = [] := by
      rw [List.flatMap_eq_nil_iff]
      intro h hh
      exact List.eq_nil_iff_forall_not_mem.mpr fun _ hu => (hbounded h hh).notEdge hu
    rw [getHostMacro_succ]
    cases hfind : hostids.findSome? fun h => cache.hmacros h macroName with
    | some value => exact ⟨_, rfl, 0, nearest_of_findSome hsorted hfind⟩
    | none =>
      dsimp only
      rw [if_pos hnil]
      exact ⟨none, rfl, outcome_none_of_nil (List.findSome?_eq_none_iff.mp hfind) hnil⟩
  | succ levels ih =>
    rw [getHostMacro_succ]
    cases hfind : hostids.findSome? fun h => cache.hmacros h macroName with
    | some value => exact ⟨_, rfl, 0, nearest_of_findSome hsorted hfind⟩
    | none =>
      have hnone := List.findSome?_eq_none_iff.mp hfind
      dsimp only
      split_ifs with hnil
      · exact ⟨none, rfl, outcome_none_of_nil hnone hnil⟩
      · have hnext : ∀ t ∈ sortIds (hostids.flatMap cache.templates),
            PathsBounded cache.templates levels t := by
          intro t ht
          obtain ⟨h, hh, ht⟩ := List.mem_flatMap.mp (mem_sortIds.mp ht)
          exact (hbounded h hh).of_edge ht
        obtain ⟨result, hresult, houtcome⟩ :=
          ih (sorted_sortIds _) hnext
        exact ⟨result, hresult, houtcome.succ hnone⟩

/-- The search from the hosts ends when the paths from them are bounded. -/
theorem getUserMacro_bounded {levels : ℕ}
    (hbounded : ∀ h, PathsBounded cache.templates levels h) (hostids : List UInt64)
    (macroName replaceTo : Bytes) :
  ∃ value, getUserMacro cache (levels + 2) hostids macroName replaceTo = some value ∧
    Resolves cache hostids macroName replaceTo value
  := by
  have hglobal : Outcome cache macroName hostids none →
      Resolves cache hostids macroName replaceTo
        (getGlobalMacro cache macroName replaceTo) := by
    intro hnone
    rw [getGlobalMacro]
    cases hvalue : cache.gmacros macroName with
    | some value => exact .global hnone hvalue
    | none => exact .unchanged hnone hvalue
  rw [getUserMacro, getHostMacro_succ]
  cases hfind : hostids.findSome? fun h => cache.hmacros h macroName with
  | some value =>
    obtain ⟨before, h, after, rfl, hvalue, hbefore⟩ := List.findSome?_eq_some_iff.mp hfind
    exact ⟨value, rfl, .host rfl hbefore hvalue⟩
  | none =>
    have hnone := List.findSome?_eq_none_iff.mp hfind
    dsimp only
    split_ifs with hnil
    · exact ⟨_, rfl, hglobal (outcome_none_of_nil hnone hnil)⟩
    · obtain ⟨result, hresult, houtcome⟩ := getHostMacro_sorted macroName
        (sorted_sortIds (hostids.flatMap cache.templates)) fun h _ => hbounded h
      have hfound := houtcome.succ hnone
      rw [hresult]
      cases result with
      | some value =>
        obtain ⟨n, t, hnearest⟩ := hfound
        exact ⟨value, rfl, .template hnone hnearest⟩
      | none => exact ⟨_, rfl, hglobal hfound⟩

/-! ### One value -/

theorem Nearest.unique {n n' : ℕ} {t t' : UInt64} {value' : Bytes}
    (h : Nearest cache macroName hostids n t value)
    (h' : Nearest cache macroName hostids n' t' value') :
  value = value'
  := by
  have hsome : (cache.hmacros t macroName).isSome := by rw [h.value_eq]; rfl
  have hsome' : (cache.hmacros t' macroName).isSome := by rw [h'.value_eq]; rfl
  obtain rfl : n = n' :=
    le_antisymm (h.nearest n' t' h'.reached hsome') (h'.nearest n t h.reached hsome)
  obtain rfl : t = t' :=
    le_antisymm (h.smallest t' h'.reached hsome') (h'.smallest t h.reached hsome)
  exact Option.some.inj (h.value_eq.symm.trans h'.value_eq)

/-- The value on the hosts, as the search for the first host with the macro. -/
theorem findSome_eq_of_host {before after : List UInt64} {hostid : UInt64}
    (hbefore : ∀ h ∈ before, cache.hmacros h macroName = none)
    (hvalue : cache.hmacros hostid macroName = some value) :
  ((before ++ hostid :: after).findSome? fun h => cache.hmacros h macroName) = some value
  := List.findSome?_eq_some_iff.mpr ⟨before, hostid, after, rfl, hvalue, hbefore⟩

/-- Exactly one of the four cases applies, with one value. -/
theorem Resolves.unique {value' : Bytes}
    (h : Resolves cache hostids macroName replaceTo value)
    (h' : Resolves cache hostids macroName replaceTo value') :
  value = value'
  := by
  have hhost : ∀ {before after : List UInt64} {hostid : UInt64} {v : Bytes},
      hostids = before ++ hostid :: after → cache.hmacros hostid macroName = some v →
      ¬ ∀ h ∈ hostids, cache.hmacros h macroName = none := by
    rintro before after hostid v rfl hvalue hnone
    rw [hnone hostid (by simp)] at hvalue
    cases hvalue
  have hreached : (∀ n t, Reached cache hostids n t → cache.hmacros t macroName = none) →
      (∀ h ∈ hostids, cache.hmacros h macroName = none) :=
    fun hnone h hh => hnone 0 h (reached_zero.mpr hh)
  have hnearest : ∀ {n t v}, Nearest cache macroName hostids n t v →
      ¬ ∀ n t, Reached cache hostids n t → cache.hmacros t macroName = none := by
    intro n t v hn hnone
    have hvalue := hn.value_eq
    rw [hnone n t hn.reached] at hvalue
    cases hvalue
  cases h with
  | host hhosts hbefore hvalue =>
    cases h' with
    | host hhosts' hbefore' hvalue' =>
      have hfind := congrArg (List.findSome? fun h => cache.hmacros h macroName)
        (hhosts.symm.trans hhosts')
      rw [findSome_eq_of_host hbefore hvalue, findSome_eq_of_host hbefore' hvalue'] at hfind
      exact Option.some.inj hfind
    | template hnone _ => exact absurd hnone (hhost hhosts hvalue)
    | global hnone _ => exact absurd (hreached hnone) (hhost hhosts hvalue)
    | unchanged hnone _ => exact absurd (hreached hnone) (hhost hhosts hvalue)
  | template hnone hn =>
    cases h' with
    | host hhosts' _ hvalue' => exact absurd hnone (hhost hhosts' hvalue')
    | template _ hn' => exact hn.unique hn'
    | global hnone' _ => exact absurd hnone' (hnearest hn)
    | unchanged hnone' _ => exact absurd hnone' (hnearest hn)
  | global hnone hglobal =>
    cases h' with
    | host hhosts' _ hvalue' => exact absurd (hreached hnone) (hhost hhosts' hvalue')
    | template _ hn' => exact absurd hnone (hnearest hn')
    | global _ hglobal' => exact Option.some.inj (hglobal.symm.trans hglobal')
    | unchanged _ hglobal' =>
      rw [hglobal] at hglobal'
      cases hglobal'
  | unchanged hnone hglobal =>
    cases h' with
    | host hhosts' _ hvalue' => exact absurd (hreached hnone) (hhost hhosts' hvalue')
    | template _ hn' => exact absurd hnone (hnearest hn')
    | global _ hglobal' =>
      rw [hglobal] at hglobal'
      cases hglobal'
    | unchanged _ _ => rfl

end

/-- Without cycles in the linkage the search ends, and the text becomes what the macro stands
for. -/
theorem getUserMacro_resolves {cache : MacroCache}
    (hacyclic : ∀ h, ¬ Relation.TransGen (Edge cache.templates) h h) (hostids : List UInt64)
    (macroName replaceTo : Bytes) :
  ∃ value, (∃ bound, ∀ levels ≥ bound,
      getUserMacro cache levels hostids macroName replaceTo = some value) ∧
    ∀ v, Resolves cache hostids macroName replaceTo v ↔ v = value
  := by
  have hbounded : ∀ levels ≥ Nat.card UInt64, ∀ h, PathsBounded cache.templates levels h :=
    fun levels hle h => (PathsBounded.of_acyclic hacyclic h).mono hle
  obtain ⟨value, -, hvalue⟩ :=
    getUserMacro_bounded (hbounded _ le_rfl) hostids macroName replaceTo
  refine ⟨value, ⟨Nat.card UInt64 + 2, fun levels hle => ?_⟩, fun v => ?_⟩
  · obtain ⟨levels, rfl⟩ := Nat.exists_eq_add_of_le' (m := 2) (n := levels) (by omega)
    obtain ⟨value', hget, hvalue'⟩ :=
      getUserMacro_bounded (hbounded levels (by omega)) hostids macroName replaceTo
    rw [hget, hvalue'.unique hvalue]
  · constructor
    · exact fun hv => hv.unique hvalue
    · rintro rfl
      exact hvalue

/-- Two hosts, of which the second shares the template 20 with a template of the first. -/
def sharedRows : List (UInt64 × UInt64) := [(1, 10), (2, 30), (2, 20), (10, 20)]

/-- The templates 20 and 30 have the macro. -/
def sharedTemplate : MacroCache where
  hmacros hostid _ := if hostid = 20 then some [0x78] else if hostid = 30 then some [0x79]
    else none
  htmpls := syncHtmpls (fun _ => none) sharedRows
  gmacros _ := none

theorem sharedTemplate_templates (hostid : UInt64) :
  sharedTemplate.templates hostid = templatesOf sharedRows hostid
  := by
  have hordered : sharedRows.Pairwise fun row row' => row.1 ≤ row'.1 := by
    simp [sharedRows]
  have hpositive : ∀ row ∈ sharedRows, row.1 ≠ 0 := by
    simp [sharedRows]
  exact syncHtmpls_templates (fun _ => none) hordered hpositive hostid

/-- The template 20 is at the distance of 30 and has the smaller identifier. -/
theorem sharedTemplate_resolves :
  ∃ value, (∃ bound, ∀ levels ≥ bound,
      getUserMacro sharedTemplate levels [1, 2] [0x7b] [] = some value) ∧
    ∀ v, Resolves sharedTemplate [1, 2] [0x7b] [] v ↔ v = value
  := by
  have hrows : ∀ row ∈ sharedRows, row.1 < row.2 := by
    simp [sharedRows]
  have hup : ∀ h t, Edge sharedTemplate.templates h t → h < t := by
    intro h t hedge
    rw [Edge, sharedTemplate_templates, templatesOf] at hedge
    obtain ⟨row, hrow, rfl⟩ := List.mem_map.mp hedge
    obtain ⟨hmem, heq⟩ := List.mem_filter.mp hrow
    rw [← of_decide_eq_true heq]
    exact hrows row hmem
  have hlt : ∀ {h t}, Relation.TransGen (Edge sharedTemplate.templates) h t → h < t := by
    intro h t ht
    induction ht with
    | single hedge => exact hup _ _ hedge
    | tail _ hedge ih => exact lt_trans ih (hup _ _ hedge)
  exact getUserMacro_resolves (fun h hcycle => lt_irrefl h (hlt hcycle)) [1, 2] [0x7b] []

end UserMacros
