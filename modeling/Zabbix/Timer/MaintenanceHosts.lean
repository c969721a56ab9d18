import Mathlib.Data.Prod.Lex
import Zabbix.Library.Identifiers
import Zabbix.Library.SortedInsert
import Zabbix.Timer.MaintenancePeriod

/-!
# Hosts in maintenance

The hosts of the maintenances with a period in force are collected in an array, by host, by the
time from which a maintenance is in force and by maintenance.  The first entry of a host tells its
maintenance.
-/

namespace Timer

open SortedInsert

/-! ### The database -/

def hostStatusMonitored : ℕ := 0

def hostMaintenanceStatusOff : ℕ := 0

def hostMaintenanceStatusOn : ℕ := 1

def flagDiscoveryPrototype : ℕ := 2

/-- A row of `hosts`; the number of no maintenance is 0. -/
structure Host where
  hostid : UInt64
  status : ℕ
  flags : ℕ
  maintenanceid : UInt64
  maintenanceStatus : ℕ
  maintenanceType : ℤ
  maintenanceFrom : ℤ

/-- A time period of a maintenance, as `maintenances_windows` joins them. -/
structure Window where
  maintenanceid : UInt64
  maintenanceType : ℤ
  activeSince : ℤ
  activeTill : ℤ
  timeperiod : Timeperiod

structure MaintenanceHost where
  maintenanceid : UInt64
  hostid : UInt64

structure MaintenanceGroup where
  maintenanceid : UInt64
  groupid : UInt64

structure HostGroup where
  hostid : UInt64
  groupid : UInt64

structure Database where
  windows : List Window
  maintenancesHosts : List MaintenanceHost
  maintenancesGroups : List MaintenanceGroup
  hostsGroups : List HostGroup
  hosts : List Host
  nodup : (hosts.map Host.hostid).Nodup

/-! ### The array of hosts -/

/-- `zbx_host_maintenance_t`. -/
structure HostMaintenance where
  hostid : UInt64
  maintenanceFrom : ℤ
  maintenanceid : UInt64
  maintenanceType : ℤ
  hostMaintenanceid : UInt64
  hostMaintenanceStatus : ℕ
  hostMaintenanceType : ℤ
  hostMaintenanceFrom : ℤ

namespace HostMaintenance

/-- The entries are of the same host, time and maintenance. -/
def same (hm hm' : HostMaintenance) : Bool :=
  hm.hostid = hm'.hostid ∧ hm.maintenanceFrom = hm'.maintenanceFrom ∧
    hm.maintenanceid = hm'.maintenanceid

/-- An entry comes before another. -/
def before (hm hm' : HostMaintenance) : Bool :=
  hm.hostid < hm'.hostid ∨
    hm.hostid = hm'.hostid ∧ hm.maintenanceFrom < hm'.maintenanceFrom ∨
    hm.hostid = hm'.hostid ∧ hm.maintenanceFrom = hm'.maintenanceFrom ∧
      hm.maintenanceid < hm'.maintenanceid

end HostMaintenance

/-- The loop of `get_host_maintenance_nearestindex`, where the first index is at most the last
one. -/
def nearestindexIn (hm : List HostMaintenance) (entry : HostMaintenance)
    (firstIndex lastIndex : ℕ) : ℕ :=
  let index := firstIndex + (lastIndex - firstIndex) / 2
  match hm[index]? with
  | none => index
  | some found =>
    if found.same entry then index
    else if lastIndex ≤ firstIndex then if found.before entry then index + 1 else index
    else if found.before entry then nearestindexIn hm entry (index + 1) lastIndex
    else nearestindexIn hm entry firstIndex index
  termination_by lastIndex - firstIndex

/-- `get_host_maintenance_nearestindex`. -/
def getHostMaintenanceNearestindex (hm : List HostMaintenance) (entry : HostMaintenance) : ℕ :=
  if hm.length = 0 then 0 else nearestindexIn hm entry 0 (hm.length - 1)

/-- `get_host_maintenance`. -/
def getHostMaintenance (hm : List HostMaintenance) (entry : HostMaintenance) :
    List HostMaintenance :=
  let index := getHostMaintenanceNearestindex hm entry
  match hm[index]? with
  | none => hm.insertIdx index entry
  | some found => if found.same entry then hm else hm.insertIdx index entry

/-- The hosts of a maintenance, and those of its groups, as they are selected. -/
def hostsOf (db : Database) (maintenanceid : UInt64) : List Host :=
  (db.maintenancesHosts.flatMap fun mh => db.hosts.filter fun h =>
    mh.hostid = h.hostid ∧ h.status = hostStatusMonitored ∧ mh.maintenanceid = maintenanceid) ++
  db.maintenancesGroups.flatMap fun mg => db.hostsGroups.flatMap fun hg =>
    db.hosts.filter fun h => mg.groupid = hg.groupid ∧ hg.hostid = h.hostid ∧
      h.status = hostStatusMonitored ∧ mg.maintenanceid = maintenanceid

/-- The entry of a host. -/
def entryOf (maintenanceFrom : ℤ) (w : Window) (h : Host) : HostMaintenance where
  hostid := h.hostid
  maintenanceFrom := maintenanceFrom
  maintenanceid := w.maintenanceid
  maintenanceType := w.maintenanceType
  hostMaintenanceid := h.maintenanceid
  hostMaintenanceStatus := h.maintenanceStatus
  hostMaintenanceType := h.maintenanceType
  hostMaintenanceFrom := h.maintenanceFrom

/-- `process_maintenance_hosts`. -/
def processMaintenanceHosts (db : Database) (hm : List HostMaintenance) (maintenanceFrom : ℤ)
    (w : Window) : List HostMaintenance :=
  (hostsOf db w.maintenanceid).foldl
    (fun hm h => getHostMaintenance hm (entryOf maintenanceFrom w h)) hm

/-! ### The update of the hosts -/

/-- The state of the host differs from that of its entry. -/
def HostMaintenance.differs (hm : HostMaintenance) : Bool :=
  hm.hostMaintenanceid ≠ hm.maintenanceid ∨
    hm.hostMaintenanceStatus ≠ hostMaintenanceStatusOn ∨
    hm.hostMaintenanceType ≠ hm.maintenanceType ∨ hm.hostMaintenanceFrom = 0

/-- The update of a host that is put into a maintenance. -/
def putInto (hm : HostMaintenance) (h : Host) : Host :=
  if h.hostid = hm.hostid then
    { h with
      maintenanceid := hm.maintenanceid
      maintenanceStatus := hostMaintenanceStatusOn
      maintenanceType := hm.maintenanceType
      maintenanceFrom :=
        if hm.hostMaintenanceFrom = 0 then hm.maintenanceFrom else h.maintenanceFrom }
  else h

/-- The loop of `update_maintenance_hosts`: the hosts that were met, and the table. -/
def putHosts : List HostMaintenance → (ids : List UInt64) → List Host → List UInt64 × List Host
  | [], ids, hosts => (ids, hosts)
  | hm :: rest, ids, hosts =>
    if hm.hostid ∈ ids then putHosts rest ids hosts
    else
      putHosts rest (hm.hostid :: ids) (if hm.differs then hosts.map (putInto hm) else hosts)

/-- The update of a host that is in maintenance and was not met. -/
def takeOut (ids : List UInt64) (h : Host) : Host :=
  if h.status = hostStatusMonitored ∧ h.flags ≠ flagDiscoveryPrototype ∧
      h.maintenanceStatus = hostMaintenanceStatusOn ∧ h.hostid ∉ ids then
    { h with
      maintenanceid := 0
      maintenanceStatus := hostMaintenanceStatusOff
      maintenanceType := 0
      maintenanceFrom := 0 }
  else h

/-- `update_maintenance_hosts`. -/
def updateMaintenanceHosts (hm : List HostMaintenance) (hosts : List Host) : List Host :=
  let (ids, hosts) := putHosts hm [] hosts
  hosts.map (takeOut ids)

/-- The windows of the maintenances that are active, as they are selected. -/
def activeWindows (db : Database) (now : ℤ) : List Window :=
  db.windows.filter fun w => w.activeSince ≤ now ∧ now < w.activeTill

/-- The array that `process_maintenance` collects. -/
def collectHosts (db : Database) (offset now : ℤ) : List HostMaintenance :=
  (activeWindows db now).foldl (fun hm w =>
    match maintenanceFrom offset now w.activeSince w.timeperiod with
    | none => hm
    | some t => processMaintenanceHosts db hm t w) []

/-- `process_maintenance`: the hosts after it. -/
def processMaintenance (db : Database) (offset now : ℤ) : List Host :=
  updateMaintenanceHosts (collectHosts db offset now) db.hosts

/-! ### The order of the array -/

/-- The entries are in order by host, by time and by maintenance. -/
def key (hm : HostMaintenance) : UInt64 ×ₗ ℤ ×ₗ UInt64 :=
  toLex (hm.hostid, toLex (hm.maintenanceFrom, hm.maintenanceid))

theorem same_iff {hm hm' : HostMaintenance} :
  hm.same hm' = true ↔ key hm = key hm'
  := by
  simp [HostMaintenance.same, key]

theorem before_iff {hm hm' : HostMaintenance} :
  hm.before hm' = true ↔ key hm < key hm'
  := by
  simp only [HostMaintenance.before, key, Prod.Lex.toLex_lt_toLex, decide_eq_true_eq]
  tauto

variable {hm : List HostMaintenance} {entry : HostMaintenance}

theorem isNearest_nearestindexIn (hsorted : Sorted key hm) {firstIndex lastIndex : ℕ}
    (h : Bracket key hm (key entry) firstIndex lastIndex) :
  IsNearest key hm (key entry) (nearestindexIn hm entry firstIndex lastIndex)
  := by
  have hle := h.le
  fun_induction nearestindexIn hm entry firstIndex lastIndex with
  | case1 first last index hget =>
    have hlt := h.lt
    rw [List.getElem?_eq_none_iff] at hget
    omega
  | case2 first last index found hget hsame =>
    exact isNearest_of_eq hsorted hget (same_iff.mp hsame)
  | case3 first last index found hget hdiffer hend hlower =>
    have hnearest := h.isNearest hget (by omega) (by omega)
    rwa [if_pos (before_iff.mp hlower)] at hnearest
  | case4 first last index found hget hdiffer hend hupper =>
    have hnearest := h.isNearest hget (by omega) (by omega)
    rwa [if_neg (mt before_iff.mpr hupper)] at hnearest
  | case5 first last index found hget hdiffer hmore hlower ih =>
    have hraised := h.raise hsorted hget (by omega) (before_iff.mp hlower)
    exact ih hraised hraised.le
  | case6 first last index found hget hdiffer hmore hupper ih =>
    have hlowered := h.lower hsorted hget (by omega) (not_lt.mp (mt before_iff.mpr hupper))
    exact ih hlowered hlowered.le

theorem isNearest_getHostMaintenanceNearestindex (hsorted : Sorted key hm)
    (entry : HostMaintenance) :
  IsNearest key hm (key entry) (getHostMaintenanceNearestindex hm entry)
  := by
  unfold getHostMaintenanceNearestindex
  split_ifs with hempty
  · obtain rfl := List.length_eq_zero_iff.mp hempty
    exact ⟨le_rfl, fun j y hy => by simp at hy, fun j y hy => by simp at hy⟩
  · exact isNearest_nearestindexIn hsorted (Bracket.whole (mt List.length_eq_zero_iff.mpr hempty))

/-- An entry is in the array afterwards, unless one of the same host, time and maintenance was. -/
theorem getHostMaintenance_eq (hsorted : Sorted key hm) (entry : HostMaintenance) :
  (∃ found ∈ hm, key found = key entry) ∧ getHostMaintenance hm entry = hm ∨
    Sorted key (getHostMaintenance hm entry) ∧
      ∀ hm', hm' ∈ getHostMaintenance hm entry ↔ hm' = entry ∨ hm' ∈ hm
  := by
  have hnearest := isNearest_getHostMaintenanceNearestindex hsorted entry
  unfold getHostMaintenance
  generalize getHostMaintenanceNearestindex hm entry = index at hnearest
  by_cases hthere : ∃ found ∈ hm, key found = key entry
  · obtain ⟨found, hmem, hkey⟩ := hthere
    have hget := hnearest.getElem_of_mem hsorted hmem hkey
    left
    simp only [hget, same_iff.mpr hkey, if_true, and_true]
    exact ⟨found, hmem, hkey⟩
  · have hinsert : (match hm[index]? with
        | none => hm.insertIdx index entry
        | some found => if found.same entry then hm else hm.insertIdx index entry) =
          hm.insertIdx index entry := by
      cases hget : hm[index]? with
      | none => rfl
      | some found =>
        refine if_neg fun hsame => hthere ⟨found, List.mem_of_getElem? hget, ?_⟩
        exact same_iff.mp hsame
    right
    dsimp only
    rw [hinsert]
    refine ⟨sorted_insertIdx hsorted hnearest fun y hy hkey => hthere ⟨y, hy, hkey⟩, ?_⟩
    intro hm'
    exact List.mem_insertIdx hnearest.le

/-- The entries of a list are collected, one for each host, time and maintenance. -/
theorem foldl_getHostMaintenance (entries : List HostMaintenance) (hsorted : Sorted key hm) :
  Sorted key (entries.foldl getHostMaintenance hm) ∧
    (∀ e ∈ entries.foldl getHostMaintenance hm, e ∈ hm ∨ e ∈ entries) ∧
    ∀ e, e ∈ hm ∨ e ∈ entries →
      ∃ found ∈ entries.foldl getHostMaintenance hm, key found = key e
  := by
  induction entries generalizing hm with
  | nil =>
    refine ⟨hsorted, fun e he => Or.inl he, ?_⟩
    rintro e (he | he)
    · exact ⟨e, he, rfl⟩
    · nomatch he
  | cons entry entries ih =>
    rw [List.foldl_cons]
    obtain ⟨⟨found, hfound, hkey⟩, hsame⟩ | ⟨hsorted', hmem⟩ := getHostMaintenance_eq hsorted entry
    · rw [hsame]
      obtain ⟨hsorted', hfrom, hthere⟩ := ih hsorted
      refine ⟨hsorted', fun e he => ?_, fun e he => ?_⟩
      · exact (hfrom e he).imp_right (List.mem_cons_of_mem entry)
      · rw [List.mem_cons] at he
        obtain he | rfl | he := he
        · exact hthere e (Or.inl he)
        · rw [← hkey]
          exact hthere found (Or.inl hfound)
        · exact hthere e (Or.inr he)
    · obtain ⟨hsorted', hfrom, hthere⟩ := ih hsorted'
      simp only [hmem] at hfrom hthere
      refine ⟨hsorted', fun e he => ?_, fun e he => hthere e ?_⟩
      · rw [List.mem_cons]
        have := hfrom e he
        tauto
      · rw [List.mem_cons] at he
        tauto

/-! ### The entries of the hosts -/

variable {db : Database} {offset now : ℤ} {w w' : Window} {h : Host} {t : ℤ}

/-- A monitored host belongs to a maintenance, or one of its groups does. -/
def Concerns (db : Database) (w : Window) (h : Host) : Prop :=
  h ∈ db.hosts ∧ h.status = hostStatusMonitored ∧
    ((∃ mh ∈ db.maintenancesHosts, mh.maintenanceid = w.maintenanceid ∧ mh.hostid = h.hostid) ∨
      ∃ mg ∈ db.maintenancesGroups, mg.maintenanceid = w.maintenanceid ∧
        ∃ hg ∈ db.hostsGroups, hg.groupid = mg.groupid ∧ hg.hostid = h.hostid)

theorem mem_hostsOf :
  h ∈ hostsOf db w.maintenanceid ↔ Concerns db w h
  := by
  simp only [hostsOf, Concerns, List.mem_append, List.mem_flatMap, List.mem_filter,
    decide_eq_true_eq]
  constructor
  · rintro (⟨mh, hmh, hmem, hhost, hstatus, hid⟩ |
      ⟨mg, hmg, hg, hhg, hmem, hgroup, hhost, hstatus, hid⟩)
    · exact ⟨hmem, hstatus, Or.inl ⟨mh, hmh, hid, hhost⟩⟩
    · exact ⟨hmem, hstatus, Or.inr ⟨mg, hmg, hid, hg, hhg, hgroup.symm, hhost⟩⟩
  · rintro ⟨hmem, hstatus, ⟨mh, hmh, hid, hhost⟩ | ⟨mg, hmg, hid, hg, hhg, hgroup, hhost⟩⟩
    · exact Or.inl ⟨mh, hmh, hmem, hhost, hstatus, hid⟩
    · exact Or.inr ⟨mg, hmg, hg, hhg, hmem, hgroup.symm, hhost, hstatus, hid⟩

/-- The entries of a window, in the order in which they come. -/
def entriesOf (db : Database) (offset now : ℤ) (w : Window) : List HostMaintenance :=
  match maintenanceFrom offset now w.activeSince w.timeperiod with
  | none => []
  | some t => (hostsOf db w.maintenanceid).map (entryOf t w)

theorem collectHosts_eq (db : Database) (offset now : ℤ) :
  collectHosts db offset now =
    ((activeWindows db now).flatMap (entriesOf db offset now)).foldl getHostMaintenance []
  := by
  rw [List.foldl_flatMap]
  unfold collectHosts
  congr 1
  funext hm w
  unfold entriesOf
  split
  · rfl
  · rw [processMaintenanceHosts, List.foldl_map]

/-- A window is in force from a time on for the code, and concerns a host. -/
def Found (db : Database) (offset now : ℤ) (h : Host) (w : Window) (t : ℤ) : Prop :=
  w ∈ activeWindows db now ∧ Concerns db w h ∧
    maintenanceFrom offset now w.activeSince w.timeperiod = some t

theorem mem_entries {e : HostMaintenance} :
  e ∈ (activeWindows db now).flatMap (entriesOf db offset now) ↔
    ∃ w t h, Found db offset now h w t ∧ e = entryOf t w h
  := by
  simp only [List.mem_flatMap, Found]
  constructor
  · rintro ⟨w, hw, he⟩
    cases hfrom : maintenanceFrom offset now w.activeSince w.timeperiod with
    | none => simp [entriesOf, hfrom] at he
    | some t =>
      simp only [entriesOf, hfrom, List.mem_map] at he
      obtain ⟨h, hh, rfl⟩ := he
      exact ⟨w, t, h, ⟨hw, mem_hostsOf.mp hh, hfrom⟩, rfl⟩
  · rintro ⟨w, t, h, ⟨hw, hh, hfrom⟩, rfl⟩
    refine ⟨w, hw, ?_⟩
    simp only [entriesOf, hfrom]
    exact List.mem_map_of_mem (mem_hostsOf.mpr hh)

/-- The array holds an entry for every window in force and every host concerned, in order. -/
theorem collectHosts_spec (db : Database) (offset now : ℤ) :
  Sorted key (collectHosts db offset now) ∧
    (∀ e ∈ collectHosts db offset now, ∃ w t h, Found db offset now h w t ∧ e = entryOf t w h) ∧
    ∀ w t h, Found db offset now h w t →
      ∃ e ∈ collectHosts db offset now, key e = key (entryOf t w h)
  := by
  rw [collectHosts_eq]
  obtain ⟨hsorted, hfrom, hthere⟩ := foldl_getHostMaintenance
    ((activeWindows db now).flatMap (entriesOf db offset now)) List.Pairwise.nil
  refine ⟨hsorted, fun e he => ?_, fun w t h hfound => ?_⟩
  · obtain hnil | hentry := hfrom e he
    · nomatch hnil
    · exact mem_entries.mp hentry
  · exact hthere _ (Or.inr (mem_entries.mpr ⟨w, t, h, hfound, rfl⟩))

theorem eq_of_hostid {h' : Host} (hh : h ∈ db.hosts) (hh' : h' ∈ db.hosts)
    (hid : h.hostid = h'.hostid) :
  h = h'
  := List.inj_on_of_nodup_map db.nodup hh hh' hid

/-! ### The hosts afterwards -/

/-- The update that an entry makes. -/
def put (e : HostMaintenance) (h : Host) : Host := if e.differs then putInto e h else h

/-- The update that the first entry of a host makes, unless the host was met before. -/
def putFirst (hm : List HostMaintenance) (ids : List UInt64) (h : Host) : Host :=
  if h.hostid ∈ ids then h
  else
    match hm.find? (fun e => e.hostid = h.hostid) with
    | none => h
    | some e => put e h

@[simp]
theorem hostid_put (e : HostMaintenance) (h : Host) :
  (put e h).hostid = h.hostid
  := by
  unfold put putInto
  split_ifs <;> rfl

theorem put_of_ne {e : HostMaintenance} (hne : h.hostid ≠ e.hostid) :
  put e h = h
  := by
  unfold put putInto
  rw [if_neg hne, ite_self]

theorem putFirst_of_met {e : HostMaintenance} {rest : List HostMaintenance} {ids : List UInt64}
    (hmet : e.hostid ∈ ids) (h : Host) :
  putFirst (e :: rest) ids h = putFirst rest ids h
  := by
  unfold putFirst
  split_ifs with hh
  · rfl
  · rw [List.find?_cons_of_neg]
    rw [decide_eq_true_eq]
    rintro heq
    exact hh (heq ▸ hmet)

theorem putFirst_cons {e : HostMaintenance} {rest : List HostMaintenance} {ids : List UInt64}
    (hnew : e.hostid ∉ ids) (h : Host) :
  putFirst rest (e.hostid :: ids) (put e h) = putFirst (e :: rest) ids h
  := by
  unfold putFirst
  rw [hostid_put]
  by_cases heq : h.hostid = e.hostid
  · rw [if_pos (by rw [heq]; exact List.mem_cons_self), if_neg (heq ▸ hnew),
      List.find?_cons_of_pos (by rw [heq, decide_eq_true_eq])]
  · rw [put_of_ne heq, List.find?_cons_of_neg (by rw [decide_eq_true_eq]; exact Ne.symm heq)]
    simp only [List.mem_cons, heq, false_or]

theorem putHosts_hosts (hm : List HostMaintenance) (ids : List UInt64) (hosts : List Host) :
  (putHosts hm ids hosts).2 = hosts.map (putFirst hm ids)
  := by
  induction hm generalizing ids hosts with
  | nil =>
    have hid : putFirst [] ids = id := by
      funext h
      exact ite_self h
    rw [hid, List.map_id]
    rfl
  | cons e rest ih =>
    by_cases hmet : e.hostid ∈ ids
    · rw [putHosts, if_pos hmet, ih, funext (putFirst_of_met hmet)]
    · have hput : (if e.differs = true then hosts.map (putInto e) else hosts) =
          hosts.map (put e) := by
        unfold put
        cases e.differs <;> simp
      rw [putHosts, if_neg hmet, hput, ih, List.map_map]
      exact List.map_congr_left fun h _ => putFirst_cons hmet h

theorem putHosts_ids (hm : List HostMaintenance) (ids : List UInt64) (hosts : List Host)
    (id : UInt64) :
  id ∈ (putHosts hm ids hosts).1 ↔ id ∈ ids ∨ ∃ e ∈ hm, e.hostid = id
  := by
  induction hm generalizing ids hosts with
  | nil => simp [putHosts]
  | cons e rest ih =>
    by_cases hmet : e.hostid ∈ ids
    · rw [putHosts, if_pos hmet, ih, List.exists_mem_cons_iff]
      constructor
      · tauto
      · rintro (h | rfl | h)
        · exact Or.inl h
        · exact Or.inl hmet
        · exact Or.inr h
    · rw [putHosts, if_neg hmet, ih, List.exists_mem_cons_iff, List.mem_cons]
      constructor
      · rintro ((rfl | h) | h) <;> tauto
      · rintro (h | rfl | h) <;> tauto

/-- A host with an entry gets the maintenance of its first entry. -/
theorem mem_updateMaintenanceHosts {hm : List HostMaintenance} {hosts : List Host}
    {e : HostMaintenance} (hh : h ∈ hosts)
    (hfind : hm.find? (fun e => e.hostid = h.hostid) = some e) :
  put e h ∈ updateMaintenanceHosts hm hosts
  := by
  have hput : put e h ∈ (putHosts hm [] hosts).2 := by
    rw [putHosts_hosts, List.mem_map]
    exact ⟨h, hh, by simp [putFirst, hfind]⟩
  have hmet : (put e h).hostid ∈ (putHosts hm [] hosts).1 := by
    have hid := List.find?_some hfind
    rw [decide_eq_true_eq] at hid
    rw [putHosts_ids, hostid_put]
    exact Or.inr ⟨e, List.mem_of_find?_eq_some hfind, hid⟩
  have hkept : takeOut (putHosts hm [] hosts).1 (put e h) = put e h :=
    if_neg fun hout => hout.2.2.2 hmet
  rw [updateMaintenanceHosts, List.mem_map]
  exact ⟨_, hput, hkept⟩

/-- A host is in a maintenance. -/
def InMaintenance (w : Window) (h : Host) : Prop :=
  h.maintenanceid = w.maintenanceid ∧ h.maintenanceStatus = hostMaintenanceStatusOn ∧
    h.maintenanceType = w.maintenanceType

theorem inMaintenance_put (t : ℤ) (w : Window) (h : Host) :
  InMaintenance w (put (entryOf t w h) h)
  := by
  by_cases hdiffers : (entryOf t w h).differs = true
  · have hhost : h.hostid = (entryOf t w h).hostid := rfl
    rw [put, if_pos hdiffers, putInto, if_pos hhost]
    exact ⟨rfl, rfl, rfl⟩
  · rw [put, if_neg hdiffers]
    have hsame := mt decide_eq_true_iff.mpr hdiffers
    simp only [entryOf, not_or, not_not] at hsame
    obtain ⟨hid, hstatus, htype, -⟩ := hsame
    exact ⟨hid, hstatus, htype⟩

/-- A host concerned is put into the maintenance that is in force since the earliest time. -/
theorem processMaintenance_puts (hfound : Found db offset now h w t) :
  ∃ w t, Found db offset now h w t ∧
    (∀ w' t', Found db offset now h w' t' →
      t < t' ∨ t = t' ∧ w.maintenanceid ≤ w'.maintenanceid) ∧
    ∃ h' ∈ processMaintenance db offset now, h'.hostid = h.hostid ∧ InMaintenance w h'
  := by
  obtain ⟨hsorted, hfrom, hthere⟩ := collectHosts_spec db offset now
  have hkey : ∀ {e : HostMaintenance} {w t}, key e = key (entryOf t w h) →
      e.hostid = h.hostid := by
    intro e w t hkey
    simp only [key, entryOf, EmbeddingLike.apply_eq_iff_eq, Prod.mk.injEq] at hkey
    exact hkey.1
  obtain ⟨e₀, he₀, hkey₀⟩ := hthere w t h hfound
  cases hfind : (collectHosts db offset now).find? (fun e => e.hostid = h.hostid) with
  | none =>
    rw [List.find?_eq_none] at hfind
    exact absurd (hkey hkey₀) (by simpa using hfind e₀ he₀)
  | some e =>
    have hid := List.find?_some hfind
    rw [decide_eq_true_eq] at hid
    obtain ⟨w, t, h', hfound', rfl⟩ := hfrom e (List.mem_of_find?_eq_some hfind)
    obtain rfl : h' = h := eq_of_hostid hfound'.2.1.1 hfound.2.1.1 hid
    refine ⟨w, t, hfound', fun w' t' hfound'' => ?_, _,
      mem_updateMaintenanceHosts hfound.2.1.1 hfind, hostid_put _ _, inMaintenance_put t w h'⟩
    obtain ⟨e', he', hkey'⟩ := hthere w' t' h' hfound''
    have hle := hsorted.le_of_find? hfind he' (by rw [decide_eq_true_eq]; exact hkey hkey')
    rw [hkey'] at hle
    simp only [key, entryOf, Prod.Lex.toLex_le_toLex, lt_irrefl, true_and, false_or] at hle
    exact hle

/-! ### Maintenances in force -/

/-- A window of an active maintenance is in force from a time on, and concerns a host. -/
def InForceFrom (db : Database) (offset now : ℤ) (h : Host) (w : Window) (t : ℤ) : Prop :=
  w ∈ activeWindows db now ∧ Concerns db w h ∧
    ∃ s, CurrentStart offset now w.activeSince w.timeperiod s ∧ t = max s w.activeSince

/-- The periods count as they should, and every host concerned is put into the maintenance that
is in force since the earliest time, the first by number among these. -/
structure Meets (db : Database) (offset now : ℤ) : Prop where
  periods : ∀ w ∈ activeWindows db now, PeriodMeets offset now w.activeSince w.timeperiod
  hosts : ∀ h w t, InForceFrom db offset now h w t →
    ∃ w t, InForceFrom db offset now h w t ∧
      (∀ w' t', InForceFrom db offset now h w' t' →
        t < t' ∨ t = t' ∧ w.maintenanceid ≤ w'.maintenanceid) ∧
      ∃ h' ∈ processMaintenance db offset now, h'.hostid = h.hostid ∧ InMaintenance w h'

theorem maintenanceFrom_iff_of_meets {activeSince : ℤ} {tp : Timeperiod}
    (hmeets : PeriodMeets offset now activeSince tp) (t : ℤ) :
  maintenanceFrom offset now activeSince tp = some t ↔
    ∃ s, CurrentStart offset now activeSince tp s ∧ t = max s activeSince
  := by
  obtain ⟨hforce, hfrom⟩ := hmeets
  refine ⟨hfrom t, ?_⟩
  rintro ⟨s, hcurrent, rfl⟩
  obtain ⟨hoccurs, hnow, hruns, hlast⟩ := hcurrent
  obtain ⟨t, ht⟩ := Option.isSome_iff_exists.mp (hforce.mpr ⟨s, hoccurs, hnow, hruns⟩)
  obtain ⟨s', ⟨hoccurs', hnow', -, hlast'⟩, rfl⟩ := hfrom t ht
  rw [ht, le_antisymm (hlast s' hoccurs' hnow') (hlast' s hoccurs hnow)]

/-- Maintenances are processed as they should exactly when every misread day of a period is
followed by another day of it. -/
theorem processMaintenance_meets_iff (db : Database) (offset now : ℤ) :
  Meets db offset now ↔
    ∀ w ∈ activeWindows db now, Recovers offset now w.activeSince w.timeperiod
  := by
  constructor
  · intro hmeets w hw
    exact (periodMeets_iff offset now w.activeSince w.timeperiod).mp (hmeets.periods w hw)
  · intro hrecovers
    have hperiods : ∀ w ∈ activeWindows db now,
        PeriodMeets offset now w.activeSince w.timeperiod :=
      fun w hw => (periodMeets_iff offset now w.activeSince w.timeperiod).mpr (hrecovers w hw)
    have hfound : ∀ h w t, InForceFrom db offset now h w t ↔ Found db offset now h w t := by
      intro h w t
      refine and_congr_right fun hw => and_congr_right fun _ => ?_
      exact (maintenanceFrom_iff_of_meets (hperiods w hw) t).symm
    refine ⟨hperiods, fun h w t hforce => ?_⟩
    simp only [hfound] at hforce ⊢
    exact processMaintenance_puts hforce

/-- Tuesdays at midnight that are the last of a February, for a day. -/
def lastTuesday : Timeperiod where
  timeperiodType := .monthly
  every := 5
  month := 2
  dayofweek := 2
  day := 0
  startTime := 0
  period := 86400
  startDate := 0
  every_pos := by decide
  startTime_nonneg := by decide
  startTime_lt := by decide

/-- On 2000-02-22, a Tuesday that another one follows, the period counts. -/
theorem lastTuesday_not_meets :
  ¬ Meets
    { windows := [⟨1, 0, 946684800, 978307200, lastTuesday⟩]
      maintenancesHosts := [⟨1, 1⟩]
      maintenancesGroups := []
      hostsGroups := []
      hosts := [⟨1, 0, 0, 0, 0, 0, 0⟩]
      nodup := by decide } 0 951181200
  := by
  intro hmeets
  have hrecovers : Recovers 0 951181200 946684800 lastTuesday :=
    (periodMeets_iff _ _ _ _).mp (hmeets.periods ⟨1, 0, 946684800, 978307200, lastTuesday⟩
      (by simp [activeWindows]))
  have hmisread : Misread lastTuesday 11009 :=
    ⟨rfl, rfl, rfl, by decide, by decide, by decide, by decide, by decide⟩
  obtain ⟨day, hlater, hnow, -⟩ := hrecovers 11009 hmisread (by decide) (by decide) (by decide)
  simp only [startOn, lastTuesday, secPerDay] at hnow
  omega

end Timer
