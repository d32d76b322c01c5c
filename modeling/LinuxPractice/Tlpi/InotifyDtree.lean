import LinuxPractice.CLib.Pathname
import LinuxPractice.CLib.Stdio
import LinuxPractice.Kernel.Runs

/-!
# `inotify_dtree.c`: the cache of watched directories

The program watches all directories of some trees.  An inotify event names a directory by
its watch descriptor only, so the program keeps the pathnames of the watched directories in
a cache, an array that is searched from the front, and changes it with every event: a rename
of a directory changes the pathnames of all directories in it.  When an event has a watch
descriptor that is not in the cache, or events have been lost, the cache is built anew.
-/

namespace LinuxPractice.Tlpi.InotifyDtree

open LinuxPractice.CLib

def PATH_MAX : Nat := 4096

def NAME_MAX : Nat := 255

def ALLOC_INCR : Nat := 200

/-- `struct watch`; `wd` is -1 in a slot that is not used. -/
structure Watch where
  wd : Int
  path : Bytes
deriving DecidableEq

def unused : Watch := ⟨-1, []⟩

inductive Exit where
  | realloc
  | inotifyInit
  | inotifyAddWatch
  /-- Prints `"zapRootDirPath(): path not found!"`. -/
  | pathNotFound
  /-- Prints `"No more root paths left to monitor; bye!"`. -/
  | noMoreRoots
  /-- `createStopFileAndAbort`. -/
  | aborted
  /-- `evCacheSlot` is read without a value. -/
  | undefined
deriving DecidableEq

/-- The answer of `inotify_add_watch`. -/
inductive AddWatch where
  | wd (wd : Nat)
  | enoent
  | error
deriving DecidableEq

/-- A call that `nftw` makes of `traverseTree`, with the answer of `inotify_add_watch` in
    it. -/
structure Visit where
  pathname : Bytes
  isDir : Bool
  addWatch : AddWatch

/-- The answers of the system while an event is processed. -/
structure Answers where
  nftw : Bytes → List Visit
  rmWatch : Int → Bool
  inotifyInit : Bool
  realloc : Bool

/-! ### The cache -/

def findWatch (wlCache : List Watch) (wd : Int) : Option Nat :=
  wlCache.findIdx? fun watch => watch.wd == wd

def markCacheSlotEmpty (wlCache : List Watch) (slot : Nat) : List Watch :=
  wlCache.set slot unused

/-- A slot that is not used; the array grows if there is none. -/
def findEmptyCacheSlot (a : Answers) (wlCache : List Watch) : Except Exit (List Watch × Nat) :=
  match wlCache.findIdx? fun watch => watch.wd == -1 with
  | some slot => .ok (wlCache, slot)
  | none =>
    if a.realloc then
      .ok (wlCache ++ List.replicate ALLOC_INCR unused, wlCache.length)
    else .error .realloc

def addWatchToCache (a : Answers) (wlCache : List Watch) (wd : Int) (pathname : Bytes) :
    Except Exit (List Watch) :=
  match findEmptyCacheSlot a wlCache with
  | .ok (wlCache, slot) => .ok (wlCache.set slot ⟨wd, pathname⟩)
  | .error exit => .error exit

def pathnameToCacheSlot (wlCache : List Watch) (pathname : Bytes) : Option Nat :=
  wlCache.findIdx? fun watch => decide (0 ≤ watch.wd) && watch.path == pathname

def pathnameInCache (wlCache : List Watch) (pathname : Bytes) : Bool :=
  (pathnameToCacheSlot wlCache pathname).isSome

/-- No pathname of `PATH_MAX` bytes gets a watch: the answer is `ENAMETOOLONG`. -/
def inotifyAddWatch (visit : Visit) : AddWatch :=
  if visit.pathname.length < PATH_MAX then visit.addWatch else .error

def traverseTree (a : Answers) (wlCache : List Watch) (visit : Visit) :
    Except Exit (List Watch) :=
  if !visit.isDir then .ok wlCache
  else
    match inotifyAddWatch visit with
    | .enoent => .ok wlCache
    | .error => .error .inotifyAddWatch
    | .wd wd =>
      if (findWatch wlCache wd).isSome then .ok wlCache
      else addWatchToCache a wlCache wd visit.pathname

/-- `watchDir`, with `nftw` in it. -/
def watchSubtree (a : Answers) (wlCache : List Watch) (path : Bytes) : Except Exit (List Watch) :=
  (a.nftw path).foldlM (traverseTree a) wlCache

def rewriteCachedPaths (wlCache : List Watch) (oldPathPrefix oldName newPathPrefix newName : Bytes) :
    List Watch :=
  let fullPath := snprintf PATH_MAX (subpath oldPathPrefix oldName)
  let newPrefix := snprintf PATH_MAX (subpath newPathPrefix newName)
  wlCache.map fun watch =>
    if isBeneath fullPath watch.path then
      { watch with path := snprintf PATH_MAX (newPrefix ++ watch.path.drop fullPath.length) }
    else watch

/-- The number of slots that are emptied; none if `inotify_rm_watch` fails, and then the
    slots behind are not looked at. -/
def zapSubtree (a : Answers) (path : Bytes) : List Watch → List Watch × Option Nat
  | [] => ([], some 0)
  | watch :: rest =>
    if 0 ≤ watch.wd ∧ isBeneath path watch.path = true then
      if a.rmWatch watch.wd then
        (unused :: (zapSubtree a path rest).1, (zapSubtree a path rest).2.map (· + 1))
      else (watch :: rest, none)
    else (watch :: (zapSubtree a path rest).1, (zapSubtree a path rest).2)

/-! ### The root directories -/

structure Monitor where
  wlCache : List Watch
  rootDirPaths : List (Option Bytes)
  ignoreRootDirs : Nat

def Monitor.path (m : Monitor) (slot : Nat) : Bytes := (m.wlCache.getD slot unused).path

def findRootDirPath (m : Monitor) (path : Bytes) : Option Nat :=
  m.rootDirPaths.findIdx? fun root => root == some path

def isRootDirPath (m : Monitor) (path : Bytes) : Bool := (findRootDirPath m path).isSome

def zapRootDirPath (m : Monitor) (path : Bytes) : Except Exit Monitor :=
  match findRootDirPath m path with
  | none => .error .pathNotFound
  | some j =>
    let m := { m with
      rootDirPaths := m.rootDirPaths.set j none, ignoreRootDirs := m.ignoreRootDirs + 1 }
    if m.ignoreRootDirs = m.rootDirPaths.length then .error .noMoreRoots else .ok m

/-- `freeCache`, and a watch for every directory of the trees that are left. -/
def reinitialize (a : Answers) (m : Monitor) : Except Exit Monitor :=
  if a.inotifyInit then
    match (m.rootDirPaths.filterMap id).foldlM (watchSubtree a) [] with
    | .ok wlCache => .ok { m with wlCache := wlCache }
    | .error exit => .error exit
  else .error .inotifyInit

/-! ### The events -/

/-- `struct inotify_event`, with the bits of the mask that the program reads. -/
structure Event where
  wd : Int
  isDir : Bool := false
  create : Bool := false
  deleteSelf : Bool := false
  moveSelf : Bool := false
  movedFrom : Bool := false
  movedTo : Bool := false
  ignored : Bool := false
  overflow : Bool := false
  unmount : Bool := false
  cookie : Nat := 0
  name : Bytes := []

/-- What is taken from the buffer. -/
inductive Taken where
  | one
  | two
  /-- `INOTIFY_READ_BUF_LEN`: all. -/
  | all
  /-- -1: the caller is to read more. -/
  | again
deriving DecidableEq

def findWatchChecked (abortOnCacheProblem : Bool) (wlCache : List Watch) (wd : Int) :
    Except Exit (Option Nat) :=
  match findWatch wlCache wd with
  | some slot => .ok (some slot)
  | none => if abortOnCacheProblem then .error .aborted else .ok none

/-- The cache has reached an inconsistent state. -/
def rebuild (a : Answers) (m : Monitor) : Except Exit (Monitor × Taken) :=
  match reinitialize a m with
  | .ok m => .ok (m, .all)
  | .error exit => .error exit

/-- A directory has left the trees. -/
def zap (a : Answers) (m : Monitor) (path : Bytes) : Except Exit (Monitor × Taken) :=
  let zapped := zapSubtree a path m.wlCache
  let m := { m with wlCache := zapped.1 }
  match zapped.2 with
  | some _ => .ok (m, .one)
  | none => rebuild a m

/-- The events of a directory that is in the cache, at `evCacheSlot`. -/
def processWatched (abortOnCacheProblem : Bool) (a : Answers) (m : Monitor) (evCacheSlot : Nat)
    (ev : Event) (next : Option Event) (firstTry : Bool) : Except Exit (Monitor × Taken) :=
  let path := m.path evCacheSlot
  let fullPath := snprintf (PATH_MAX + NAME_MAX) (subpath path ev.name)
  if ev.isDir && (ev.create || ev.movedTo) then
    if pathnameInCache m.wlCache fullPath then .ok (m, .one)
    else
      match watchSubtree a m.wlCache fullPath with
      | .ok wlCache => .ok ({ m with wlCache := wlCache }, .one)
      | .error exit => .error exit
  else if ev.deleteSelf then
    match if isRootDirPath m path then zapRootDirPath m path else .ok m with
    | .ok m => .ok ({ m with wlCache := markCacheSlotEmpty m.wlCache evCacheSlot }, .one)
    | .error exit => .error exit
  else if ev.movedFrom && ev.isDir then
    match next with
    | some nextEv =>
      if nextEv.movedTo && nextEv.cookie == ev.cookie then
        match findWatchChecked abortOnCacheProblem m.wlCache nextEv.wd with
        | .ok (some nextEvCacheSlot) =>
          let wlCache :=
            rewriteCachedPaths m.wlCache path ev.name (m.path nextEvCacheSlot) nextEv.name
          .ok ({ m with wlCache := wlCache }, .two)
        | .ok none => rebuild a m
        | .error exit => .error exit
      else zap a m fullPath
    | none => if firstTry then .ok (m, .again) else zap a m fullPath
  else if ev.overflow then rebuild a m
  else if ev.unmount then
    .ok ({ m with wlCache := markCacheSlotEmpty m.wlCache evCacheSlot }, .one)
  else if ev.moveSelf && isRootDirPath m path then
    match zapRootDirPath m path with
    | .ok m => zap a m path
    | .error exit => .error exit
  else .ok (m, .one)

/-- The events without a slot: lost events, and watches that have been removed. -/
def processUnwatched (a : Answers) (m : Monitor) (ev : Event) : Except Exit (Monitor × Taken) :=
  if ev.isDir && (ev.create || ev.movedTo || ev.movedFrom) || ev.deleteSelf then
    .error .undefined
  else if ev.overflow then rebuild a m
  else if ev.unmount || ev.moveSelf then .error .undefined
  else .ok (m, .one)

/-- `next` is the event behind `ev` in the buffer. -/
def processNextInotifyEvent (abortOnCacheProblem : Bool) (a : Answers) (m : Monitor) (ev : Event)
    (next : Option Event) (firstTry : Bool) : Except Exit (Monitor × Taken) :=
  if ev.wd ≠ -1 ∧ ev.ignored = false then
    match findWatchChecked abortOnCacheProblem m.wlCache ev.wd with
    | .ok (some evCacheSlot) =>
      processWatched abortOnCacheProblem a m evCacheSlot ev next firstTry
    | .ok none => rebuild a m
    | .error exit => .error exit
  else processUnwatched a m ev

/-- The events of the buffer, up to one that the caller has to read more for. -/
def processBuffer (abortOnCacheProblem : Bool) (a : Answers) :
    Monitor → List Event → Bool → Except Exit (Monitor × Option Event)
  | m, [], _ => .ok (m, none)
  | m, [ev], firstTry =>
    match processNextInotifyEvent abortOnCacheProblem a m ev none firstTry with
    | .ok (m, .again) => .ok (m, some ev)
    | .ok (m, _) => .ok (m, none)
    | .error exit => .error exit
  | m, ev :: nextEv :: rest, firstTry =>
    match processNextInotifyEvent abortOnCacheProblem a m ev (some nextEv) firstTry with
    | .ok (m, .one) => processBuffer abortOnCacheProblem a m (nextEv :: rest) true
    | .ok (m, .two) => processBuffer abortOnCacheProblem a m rest true
    | .ok (m, .all) => .ok (m, none)
    | .ok (m, .again) => .ok (m, some ev)
    | .error exit => .error exit

/-- `processInotifyEvents`, called again and again from `main`.  `reads` is what the calls of
    `read` give in turn; when `hanging` is an event that a second `read` is made for, nothing
    more, or no events, stand for a `read` that `SIGALRM` interrupts. -/
def processInotifyEvents (abortOnCacheProblem : Bool) (a : Answers) :
    Monitor → Option Event → List (List Event) → Except Exit Monitor
  | m, none, [] => .ok m
  | m, some ev, [] =>
    match processBuffer abortOnCacheProblem a m [ev] false with
    | .ok (m, _) => .ok m
    | .error exit => .error exit
  | m, hanging, evs :: reads =>
    match processBuffer abortOnCacheProblem a m (hanging.toList ++ evs) hanging.isNone with
    | .ok (m, hanging) => processInotifyEvents abortOnCacheProblem a m hanging reads
    | .error exit => .error exit

/-! ### The invariant of the cache -/

/-- No watch descriptor is in two slots, a slot that is not used is blank, and the pathnames
    fit into their arrays. -/
structure CacheOk (wlCache : List Watch) : Prop where
  wd : ∀ watch ∈ wlCache, -1 ≤ watch.wd
  blank : ∀ watch ∈ wlCache, watch.wd = -1 → watch.path = []
  distinct : wlCache.Pairwise fun watch watch' => watch.wd = watch'.wd → watch.wd = -1
  short : ∀ watch ∈ wlCache, watch.path.length < PATH_MAX
  size : ALLOC_INCR ∣ wlCache.length

/-- The cache says that `wd` is the directory at `path`. -/
def Entry (wlCache : List Watch) (wd : Nat) (path : Bytes) : Prop := ⟨wd, path⟩ ∈ wlCache

section Cache

variable {a : Answers} {wlCache wlCache' front back : List Watch} {watch : Watch} {slot wd : Nat}
  {path : Bytes}

theorem cacheOk_nil : CacheOk [] where
  wd := by simp
  blank := by simp
  distinct := .nil
  short := by simp
  size := Nat.dvd_zero _

theorem exists_split {α : Type} {p : α → Bool} {xs : List α} (h : xs.findIdx? p = some slot) :
    ∃ front x back, xs = front ++ x :: back ∧ slot = front.length ∧ p x = true := by
  obtain ⟨hslot, hp, -⟩ := List.findIdx?_eq_some_iff_getElem.mp h
  refine ⟨xs.take slot, xs[slot], xs.drop (slot + 1), ?_, ?_, hp⟩
  · rw [List.getElem_cons_drop, List.take_append_drop]
  · rw [List.length_take]
    omega

/-- Another watch in a slot. -/
theorem CacheOk.replace (h : CacheOk (front ++ watch :: back)) {new : Watch}
    (hwd : -1 ≤ new.wd) (hblank : new.wd = -1 → new.path = [])
    (hshort : new.path.length < PATH_MAX)
    (hnew : ∀ other ∈ front ++ back, new.wd = other.wd → new.wd = -1) :
    CacheOk (front ++ new :: back) := by
  have hmem : ∀ {other}, other ∈ front ++ new :: back →
      other = new ∨ other ∈ front ++ watch :: back := by
    intro other hother
    simp only [List.mem_append, List.mem_cons] at hother ⊢
    tauto
  have hdistinct := h.distinct
  rw [List.pairwise_append, List.pairwise_cons] at hdistinct
  obtain ⟨hfront, ⟨-, hback⟩, hcross⟩ := hdistinct
  refine ⟨fun other hother => ?_, fun other hother => ?_, ?_, fun other hother => ?_, ?_⟩
  · rcases hmem hother with rfl | hold
    · exact hwd
    · exact h.wd other hold
  · rcases hmem hother with rfl | hold
    · exact hblank
    · exact h.blank other hold
  · rw [List.pairwise_append, List.pairwise_cons]
    refine ⟨hfront, ⟨fun other hother => hnew other (by simp [hother]), hback⟩, ?_⟩
    intro other hother watch' hwatch' heq
    rcases List.mem_cons.mp hwatch' with rfl | hwatch'
    · rw [heq]
      exact hnew other (by simp [hother]) heq.symm
    · exact hcross other hother watch' (by simp [hwatch']) heq
  · rcases hmem hother with rfl | hold
    · exact hshort
    · exact h.short other hold
  · have hsize := h.size
    simpa using hsize

theorem CacheOk.empty (h : CacheOk (front ++ watch :: back)) : CacheOk (front ++ unused :: back) :=
  h.replace (Int.le_refl _) (fun _ => rfl) (by decide) fun _ _ _ => rfl

theorem CacheOk.other (h : CacheOk (front ++ watch :: back)) {other : Watch}
    (hother : other ∈ front ++ back) (heq : other.wd = watch.wd) : other.wd = -1 := by
  have hdistinct := h.distinct
  rw [List.pairwise_append, List.pairwise_cons] at hdistinct
  obtain ⟨-, ⟨hback, -⟩, hcross⟩ := hdistinct
  rcases List.mem_append.mp hother with hfront | hin
  · exact hcross other hfront watch (by simp) heq
  · rw [heq]
    exact hback other hin heq.symm

/-! ### What is in the cache -/

theorem Entry.unique (h : CacheOk wlCache) {path' : Bytes} (hentry : Entry wlCache wd path)
    (hentry' : Entry wlCache wd path') : path = path' := by
  obtain ⟨front, back, rfl⟩ := List.append_of_mem hentry
  by_cases heq : path' = path
  · exact heq.symm
  · have hother : (⟨wd, path'⟩ : Watch) ∈ front ++ back := by
      unfold Entry at hentry'
      simp only [List.mem_append, List.mem_cons, Watch.mk.injEq] at hentry' ⊢
      tauto
    have hnone : (wd : Int) = -1 := h.other hother rfl
    omega

/-- A watch descriptor that is looked up is found if it is in the cache. -/
theorem findWatch_of_entry (h : Entry wlCache wd path) :
    ∃ slot, findWatch wlCache wd = some slot := by
  rw [← Option.isSome_iff_exists, findWatch, List.findIdx?_isSome, List.any_eq_true]
  exact ⟨_, h, by simp⟩

theorem exists_split_of_findWatch (h : findWatch wlCache wd = some slot) :
    ∃ front path back, wlCache = front ++ ⟨wd, path⟩ :: back ∧ slot = front.length := by
  obtain ⟨front, ⟨wd', path⟩, back, rfl, hslot, hp⟩ := exists_split h
  simp only [beq_iff_eq] at hp
  subst hp
  exact ⟨front, path, back, rfl, hslot⟩

theorem entry_of_findWatch (h : findWatch wlCache wd = some slot) :
    ∃ path, Entry wlCache wd path := by
  obtain ⟨front, path, back, rfl, -⟩ := exists_split_of_findWatch h
  exact ⟨path, by simp [Entry]⟩

theorem findWatch_eq_none (h : findWatch wlCache wd = none) : ∀ watch ∈ wlCache, watch.wd ≠ wd := by
  intro watch hwatch heq
  have hnone := List.findIdx?_eq_none_iff.mp h watch hwatch
  simp [heq] at hnone

theorem path_of_findWatch {m : Monitor} (hok : CacheOk m.wlCache)
    (hentry : Entry m.wlCache wd path) (h : findWatch m.wlCache wd = some slot) :
    m.path slot = path := by
  obtain ⟨front, path', back, hsplit, rfl⟩ := exists_split_of_findWatch h
  have hentry' : Entry m.wlCache wd path' := by
    rw [hsplit]
    simp [Entry]
  rw [hentry.unique hok hentry', Monitor.path, hsplit]
  simp

theorem pathnameInCache_iff :
    pathnameInCache wlCache path = true ↔ ∃ wd, Entry wlCache wd path := by
  rw [pathnameInCache, pathnameToCacheSlot, List.findIdx?_isSome, List.any_eq_true]
  constructor
  · rintro ⟨⟨wd, path'⟩, hmem, hwatch⟩
    simp only [Bool.and_eq_true, decide_eq_true_eq, beq_iff_eq] at hwatch
    obtain ⟨hwd, rfl⟩ := hwatch
    obtain ⟨wd, rfl⟩ := Int.eq_ofNat_of_zero_le hwd
    exact ⟨wd, hmem⟩
  · rintro ⟨wd, hentry⟩
    exact ⟨_, hentry, by simp⟩

/-! ### The changes of the cache -/

theorem entry_unused {wd : Nat} {path : Bytes} : (⟨wd, path⟩ : Watch) ≠ unused := by
  intro h
  have hwd : (wd : Int) = -1 := congrArg Watch.wd h
  omega

theorem cacheOk_markCacheSlotEmpty (h : CacheOk wlCache) (slot : Nat) :
    CacheOk (markCacheSlotEmpty wlCache slot) := by
  by_cases hslot : slot < wlCache.length
  · have hsplit : wlCache = wlCache.take slot ++ wlCache[slot] :: wlCache.drop (slot + 1) := by
      rw [List.getElem_cons_drop, List.take_append_drop]
    rw [markCacheSlotEmpty, List.set_eq_take_append_cons_drop, if_pos hslot]
    rw [hsplit] at h
    exact h.empty
  · rwa [markCacheSlotEmpty, List.set_eq_of_length_le (by omega)]

theorem entry_markCacheSlotEmpty (hok : CacheOk wlCache) (h : findWatch wlCache wd = some slot)
    {wd' : Nat} {path' : Bytes} :
    Entry (markCacheSlotEmpty wlCache slot) wd' path' ↔ Entry wlCache wd' path' ∧ wd' ≠ wd := by
  obtain ⟨front, path, back, rfl, rfl⟩ := exists_split_of_findWatch h
  have hset : markCacheSlotEmpty (front ++ ⟨wd, path⟩ :: back) front.length =
      front ++ unused :: back := by
    simp [markCacheSlotEmpty]
  rw [hset]
  constructor
  · intro hentry
    have hin : (⟨wd', path'⟩ : Watch) ∈ front ++ back := by
      have hunused := @entry_unused wd' path'
      simp only [Entry, List.mem_append, List.mem_cons] at hentry ⊢
      tauto
    refine ⟨?_, ?_⟩
    · simp only [Entry, List.mem_append, List.mem_cons] at hin ⊢
      tauto
    · rintro rfl
      have hnone : (wd' : Int) = -1 := hok.other hin rfl
      omega
  · rintro ⟨hentry, hne⟩
    simp only [Entry, List.mem_append, List.mem_cons, Watch.mk.injEq, Int.natCast_inj] at hentry ⊢
    tauto

/-- The slot that is found is not used, and nothing in the cache has changed. -/
theorem findEmptyCacheSlot_spec (hok : CacheOk wlCache)
    (h : findEmptyCacheSlot a wlCache = .ok (wlCache', slot)) :
    CacheOk wlCache' ∧ (∀ watch ∈ wlCache', watch ∈ wlCache ∨ watch = unused) ∧
      (∀ watch ∈ wlCache, watch ∈ wlCache') ∧
      ∃ front watch back, wlCache' = front ++ watch :: back ∧ slot = front.length ∧
        watch.wd = -1 := by
  unfold findEmptyCacheSlot at h
  split at h
  · rename_i slot' hfind
    cases h
    obtain ⟨front, watch, back, hsplit, hslot, hp⟩ := exists_split hfind
    exact ⟨hok, fun _ => .inl, fun _ => id, front, watch, back, hsplit, hslot, by simpa using hp⟩
  · split at h
    · cases h
      have hmem : ∀ watch ∈ wlCache ++ List.replicate ALLOC_INCR unused,
          watch ∈ wlCache ∨ watch = unused := by
        intro watch hwatch
        rcases List.mem_append.mp hwatch with hold | hnew
        · exact .inl hold
        · exact .inr (List.eq_of_mem_replicate hnew)
      refine ⟨⟨?_, ?_, ?_, ?_, ?_⟩, hmem, fun watch => List.mem_append_left _, wlCache, unused,
        List.replicate 199 unused, rfl, rfl, rfl⟩
      · intro watch hwatch
        rcases hmem watch hwatch with hold | rfl
        · exact hok.wd watch hold
        · decide
      · intro watch hwatch
        rcases hmem watch hwatch with hold | rfl
        · exact hok.blank watch hold
        · exact fun _ => rfl
      · rw [List.pairwise_append]
        refine ⟨hok.distinct, List.pairwise_replicate.mpr (.inr fun _ => rfl), ?_⟩
        intro watch _ new hnew heq
        rw [heq, List.eq_of_mem_replicate hnew]
        rfl
      · intro watch hwatch
        rcases hmem watch hwatch with hold | rfl
        · exact hok.short watch hold
        · decide
      · rw [List.length_append, List.length_replicate]
        exact Nat.dvd_add hok.size (Nat.dvd_refl _)
    · cases h

theorem addWatchToCache_spec (hok : CacheOk wlCache) (hwd : ∀ watch ∈ wlCache, watch.wd ≠ wd)
    (hshort : path.length < PATH_MAX) (h : addWatchToCache a wlCache wd path = .ok wlCache') :
    CacheOk wlCache' ∧ ∀ wd' path',
      Entry wlCache' wd' path' ↔ Entry wlCache wd' path' ∨ wd' = wd ∧ path' = path := by
  unfold addWatchToCache at h
  split at h
  · rename_i grown slot hfind
    cases h
    obtain ⟨hok', hsub, hsup, front, watch, back, rfl, rfl, hempty⟩ :=
      findEmptyCacheSlot_spec hok hfind
    have hset : (front ++ watch :: back).set front.length ⟨wd, path⟩ =
        front ++ ⟨wd, path⟩ :: back := by
      simp
    rw [hset]
    have hwd' : (0 : Int) ≤ wd := Int.natCast_nonneg wd
    refine ⟨hok'.replace (Int.le_trans (by decide) hwd') (fun hnone => ?_) hshort ?_,
      fun wd' path' => ?_⟩
    · dsimp only at hnone
      omega
    · intro other hother heq
      rcases hsub other (by simp at hother ⊢; tauto) with hold | rfl
      · exact absurd heq.symm (hwd other hold)
      · exact heq
    · constructor
      · intro hentry
        have hcases : (⟨wd', path'⟩ : Watch) ∈ front ++ watch :: back ∨
            (⟨wd', path'⟩ : Watch) = ⟨wd, path⟩ := by
          simp only [Entry, List.mem_append, List.mem_cons] at hentry ⊢
          tauto
        rcases hcases with hold | hnew
        · exact .inl ((hsub _ hold).resolve_right entry_unused)
        · rw [Watch.mk.injEq, Int.natCast_inj] at hnew
          exact .inr hnew
      · rintro (hold | ⟨rfl, rfl⟩)
        · have hne : (⟨wd', path'⟩ : Watch) ≠ watch := by
            rintro rfl
            simp only at hempty
            omega
          have hin := hsup _ hold
          simp only [Entry, List.mem_append, List.mem_cons] at hin ⊢
          tauto
        · simp [Entry]
  · cases h

theorem not_isBeneath_nil (dir name : Bytes) :
    isBeneath (snprintf PATH_MAX (subpath dir name)) [] = false := by
  have hne : snprintf PATH_MAX (subpath dir name) ≠ [] := by
    intro hnil
    have hlen := congrArg List.length hnil
    rw [snprintf, List.length_take, length_subpath] at hlen
    simp [PATH_MAX] at hlen
  rw [Bool.eq_false_iff]
  intro hbeneath
  have hlen := (isBeneath_iff.mp hbeneath).length_le
  exact hne (List.length_eq_zero_iff.mp (Nat.le_zero.mp hlen))

theorem cacheOk_rewriteCachedPaths (hok : CacheOk wlCache) (old oldName new newName : Bytes) :
    CacheOk (rewriteCachedPaths wlCache old oldName new newName) := by
  have hmem : ∀ {watch}, watch ∈ rewriteCachedPaths wlCache old oldName new newName →
      ∃ before ∈ wlCache, watch.wd = before.wd ∧
        (watch = before ∨ isBeneath (snprintf PATH_MAX (subpath old oldName)) before.path = true ∧
          watch.path.length < PATH_MAX) := by
    intro watch hwatch
    obtain ⟨before, hbefore, rfl⟩ := List.mem_map.mp hwatch
    refine ⟨before, hbefore, ?_⟩
    split
    · rename_i hbeneath
      exact ⟨rfl, .inr ⟨hbeneath, length_snprintf_lt (by decide) _⟩⟩
    · exact ⟨rfl, .inl rfl⟩
  refine ⟨fun watch hwatch => ?_, fun watch hwatch hwd => ?_, ?_, fun watch hwatch => ?_, ?_⟩
  · obtain ⟨before, hbefore, hwd, -⟩ := hmem hwatch
    rw [hwd]
    exact hok.wd before hbefore
  · -- the pathname of a blank slot lies beneath no directory
    obtain ⟨before, hbefore, hwd', rfl | ⟨hbeneath, -⟩⟩ := hmem hwatch
    · exact hok.blank watch hbefore hwd
    · rw [hok.blank before hbefore (hwd'.symm.trans hwd), not_isBeneath_nil] at hbeneath
      cases hbeneath
  · refine List.pairwise_map.mpr (hok.distinct.imp ?_)
    intro watch watch' himp
    split
    · split
      · exact himp
      · exact himp
    · split
      · exact himp
      · exact himp
  · obtain ⟨before, hbefore, -, rfl | ⟨-, hshort⟩⟩ := hmem hwatch
    · exact hok.short watch hbefore
    · exact hshort
  · rw [rewriteCachedPaths, List.length_map]
    exact hok.size

theorem entry_rewriteCachedPaths {old oldName new newName : Bytes} :
    Entry (rewriteCachedPaths wlCache old oldName new newName) wd path ↔
      ∃ before, Entry wlCache wd before ∧
        path = if isBeneath (snprintf PATH_MAX (subpath old oldName)) before then
          snprintf PATH_MAX (snprintf PATH_MAX (subpath new newName) ++
            before.drop (snprintf PATH_MAX (subpath old oldName)).length)
          else before := by
  constructor
  · intro h
    obtain ⟨⟨wd', before⟩, hbefore, heq⟩ := List.mem_map.mp h
    split at heq
    · rename_i hbeneath
      rw [Watch.mk.injEq] at heq
      obtain ⟨rfl, rfl⟩ := heq
      exact ⟨before, hbefore, by rw [if_pos hbeneath]⟩
    · rename_i hbeneath
      rw [Watch.mk.injEq] at heq
      obtain ⟨rfl, rfl⟩ := heq
      exact ⟨before, hbefore, by rw [if_neg hbeneath]⟩
  · rintro ⟨before, hbefore, rfl⟩
    refine List.mem_map.mpr ⟨_, hbefore, ?_⟩
    dsimp only
    split
    · rfl
    · rfl

theorem zapSubtree_mem (path : Bytes) (wlCache : List Watch) :
    ∀ watch ∈ (zapSubtree a path wlCache).1, watch ∈ wlCache ∨ watch = unused := by
  induction wlCache with
  | nil => simp [zapSubtree]
  | cons head rest ih =>
    intro watch hwatch
    unfold zapSubtree at hwatch
    split at hwatch
    · split at hwatch
      · rcases List.mem_cons.mp hwatch with rfl | hwatch
        · exact .inr rfl
        · exact (ih watch hwatch).imp (List.mem_cons_of_mem _) id
      · exact .inl hwatch
    · rcases List.mem_cons.mp hwatch with rfl | hwatch
      · exact .inl List.mem_cons_self
      · exact (ih watch hwatch).imp (List.mem_cons_of_mem _) id

theorem length_zapSubtree (path : Bytes) (wlCache : List Watch) :
    (zapSubtree a path wlCache).1.length = wlCache.length := by
  induction wlCache with
  | nil => rfl
  | cons head rest ih =>
    unfold zapSubtree
    split
    · split
      · simpa using ih
      · rfl
    · simpa using ih

theorem cacheOk_zapSubtree (hok : CacheOk wlCache) (path : Bytes) :
    CacheOk (zapSubtree a path wlCache).1 := by
  refine ⟨fun watch hwatch => ?_, fun watch hwatch => ?_, ?_, fun watch hwatch => ?_, ?_⟩
  · rcases zapSubtree_mem path wlCache watch hwatch with hold | rfl
    · exact hok.wd watch hold
    · decide
  · rcases zapSubtree_mem path wlCache watch hwatch with hold | rfl
    · exact hok.blank watch hold
    · exact fun _ => rfl
  · have hdistinct := hok.distinct
    clear hok
    induction wlCache with
    | nil => exact .nil
    | cons head rest ih =>
      rw [List.pairwise_cons] at hdistinct
      have hhead : ∀ watch ∈ (zapSubtree a path rest).1, head.wd = watch.wd → head.wd = -1 := by
        intro watch hwatch heq
        rcases zapSubtree_mem path rest watch hwatch with hold | rfl
        · exact hdistinct.1 watch hold heq
        · exact heq
      unfold zapSubtree
      split
      · split
        · exact List.pairwise_cons.mpr ⟨fun _ _ _ => rfl, ih hdistinct.2⟩
        · exact List.pairwise_cons.mpr hdistinct
      · exact List.pairwise_cons.mpr ⟨hhead, ih hdistinct.2⟩
  · rcases zapSubtree_mem path wlCache watch hwatch with hold | rfl
    · exact hok.short watch hold
    · decide
  · rw [length_zapSubtree]
    exact hok.size

/-- Without a failure the directories beneath `path` leave the cache, and no others. -/
theorem entry_zapSubtree {top : Bytes} (hrm : ∀ wd, a.rmWatch wd = true) :
    (∃ cnt, (zapSubtree a top wlCache).2 = some cnt) ∧
      (Entry (zapSubtree a top wlCache).1 wd path ↔ Entry wlCache wd path ∧ ¬ Beneath top path) := by
  induction wlCache with
  | nil => simp [zapSubtree, Entry]
  | cons head rest ih =>
    obtain ⟨⟨cnt, hcnt⟩, hiff⟩ := ih
    unfold Entry at hiff
    by_cases hhead : 0 ≤ head.wd ∧ isBeneath top head.path = true
    · rw [zapSubtree, if_pos hhead, if_pos (hrm _), hcnt]
      refine ⟨⟨_, rfl⟩, ?_⟩
      rw [Entry, Entry, List.mem_cons, List.mem_cons, hiff]
      constructor
      · rintro (hunused | ⟨hrest, hbeneath⟩)
        · exact absurd hunused entry_unused
        · exact ⟨.inr hrest, hbeneath⟩
      · rintro ⟨rfl | hrest, hbeneath⟩
        · exact absurd (isBeneath_iff.mp hhead.2) hbeneath
        · exact .inr ⟨hrest, hbeneath⟩
    · rw [zapSubtree, if_neg hhead]
      refine ⟨⟨cnt, hcnt⟩, ?_⟩
      rw [Entry, Entry, List.mem_cons, List.mem_cons, hiff]
      constructor
      · rintro (rfl | ⟨hrest, hbeneath⟩)
        · refine ⟨.inl rfl, fun hbeneath => hhead ⟨?_, isBeneath_iff.mpr hbeneath⟩⟩
          exact Int.natCast_nonneg wd
        · exact ⟨.inr hrest, hbeneath⟩
      · rintro ⟨rfl | hrest, hbeneath⟩
        · exact .inl rfl
        · exact .inr ⟨hrest, hbeneath⟩

theorem cacheOk_traverseTree {visit : Visit} (hok : CacheOk wlCache)
    (h : traverseTree a wlCache visit = .ok wlCache') : CacheOk wlCache' := by
  unfold traverseTree at h
  split at h
  · cases h
    exact hok
  · split at h
    · cases h
      exact hok
    · cases h
    · rename_i wd hwd
      split at h
      · cases h
        exact hok
      · rename_i hfind
        have hshort : visit.pathname.length < PATH_MAX := by
          by_contra hlong
          rw [inotifyAddWatch, if_neg hlong] at hwd
          cases hwd
        have hnone := findWatch_eq_none (by simpa using hfind)
        exact (addWatchToCache_spec hok hnone hshort h).1

/-- What each step of a loop keeps, the loop keeps. -/
theorem foldlM_keeps {σ α : Type} {f : σ → α → Except Exit σ} {P : σ → Prop}
    (hstep : ∀ {s x s'}, P s → f s x = .ok s' → P s') {xs : List α} {s s' : σ} (hs : P s)
    (h : xs.foldlM f s = .ok s') : P s' := by
  induction xs generalizing s with
  | nil =>
    cases h
    exact hs
  | cons x xs ih =>
    rw [List.foldlM_cons] at h
    cases hx : f s x with
    | ok mid =>
      rw [hx] at h
      exact ih (hstep hs hx) h
    | error exit =>
      rw [hx] at h
      cases h

theorem cacheOk_watchSubtree (hok : CacheOk wlCache)
    (h : watchSubtree a wlCache path = .ok wlCache') : CacheOk wlCache' :=
  foldlM_keeps cacheOk_traverseTree hok h

theorem cacheOk_reinitialize {m m' : Monitor} (h : reinitialize a m = .ok m') :
    CacheOk m'.wlCache := by
  unfold reinitialize at h
  split at h
  · split at h
    · rename_i hfold
      cases h
      exact foldlM_keeps cacheOk_watchSubtree cacheOk_nil hfold
    · cases h
  · cases h

end Cache

/-! ### All runs -/

/-- The cache is in order, and a root directory is left. -/
structure MonitorOk (m : Monitor) : Prop where
  cache : CacheOk m.wlCache
  ignored : m.ignoreRootDirs = m.rootDirPaths.count none
  left : m.ignoreRootDirs < m.rootDirPaths.length

section Monitor

variable {abortOnCacheProblem firstTry : Bool} {a : Answers} {m m' : Monitor} {slot : Nat}
  {path : Bytes} {wlCache : List Watch} {ev : Event} {next : Option Event} {taken : Taken}

theorem MonitorOk.withCache (h : MonitorOk m) (hcache : CacheOk wlCache) :
    MonitorOk { m with wlCache := wlCache } := ⟨hcache, h.ignored, h.left⟩

theorem MonitorOk.reinitialize (h : MonitorOk m)
    (hrun : InotifyDtree.reinitialize a m = .ok m') : MonitorOk m' := by
  have hcache := cacheOk_reinitialize hrun
  unfold InotifyDtree.reinitialize at hrun
  split at hrun
  · split at hrun
    · cases hrun
      exact h.withCache hcache
    · cases hrun
  · cases hrun

theorem MonitorOk.rebuild (h : MonitorOk m)
    (hrun : InotifyDtree.rebuild a m = .ok (m', taken)) : MonitorOk m' := by
  unfold InotifyDtree.rebuild at hrun
  split at hrun
  · rename_i hinit
    cases hrun
    exact h.reinitialize hinit
  · cases hrun

theorem MonitorOk.zap (h : MonitorOk m) (hrun : InotifyDtree.zap a m path = .ok (m', taken)) :
    MonitorOk m' := by
  have hzapped := h.withCache (cacheOk_zapSubtree (a := a) h.cache path)
  unfold InotifyDtree.zap at hrun
  dsimp only at hrun
  split at hrun
  · cases hrun
    exact hzapped
  · exact hzapped.rebuild hrun

theorem MonitorOk.mark (h : MonitorOk m) (slot : Nat) :
    MonitorOk { m with wlCache := markCacheSlotEmpty m.wlCache slot } :=
  h.withCache (cacheOk_markCacheSlotEmpty h.cache slot)

theorem MonitorOk.zapRootDirPath (h : MonitorOk m)
    (hrun : InotifyDtree.zapRootDirPath m path = .ok m') : MonitorOk m' := by
  unfold InotifyDtree.zapRootDirPath at hrun
  split at hrun
  · cases hrun
  · rename_i j hfind
    obtain ⟨front, root, back, hsplit, rfl, hroot⟩ := exists_split hfind
    rw [beq_iff_eq] at hroot
    subst hroot
    have hset : m.rootDirPaths.set front.length none = front ++ none :: back := by simp [hsplit]
    have hignored := h.ignored
    have hleft := h.left
    rw [hsplit, List.count_append, List.count_cons_of_ne (by simp)] at hignored
    rw [hsplit, List.length_append, List.length_cons] at hleft
    dsimp only at hrun
    rw [hset] at hrun
    split at hrun
    · cases hrun
    · rename_i hmore
      cases hrun
      refine ⟨h.cache, ?_, ?_⟩
      · rw [List.count_append, List.count_cons_self]
        dsimp only
        omega
      · rw [List.length_append, List.length_cons] at hmore ⊢
        dsimp only at hmore ⊢
        omega

theorem MonitorOk.processWatched (h : MonitorOk m)
    (hrun : InotifyDtree.processWatched abortOnCacheProblem a m slot ev next firstTry =
      .ok (m', taken)) : MonitorOk m' := by
  unfold InotifyDtree.processWatched at hrun
  dsimp only at hrun
  split at hrun
  · -- a directory has come into the tree
    split at hrun
    · cases hrun
      exact h
    · split at hrun
      · rename_i hwatch
        cases hrun
        exact h.withCache (cacheOk_watchSubtree h.cache hwatch)
      · cases hrun
  · split at hrun
    · -- the directory has been deleted
      split at hrun
      · rename_i m'' hroot
        cases hrun
        split at hroot
        · exact (h.zapRootDirPath hroot).mark slot
        · cases hroot
          exact h.mark slot
      · cases hrun
    · split at hrun
      · -- a directory has been moved
        split at hrun
        · split at hrun
          · split at hrun
            · cases hrun
              exact h.withCache (cacheOk_rewriteCachedPaths h.cache _ _ _ _)
            · exact h.rebuild hrun
            · cases hrun
          · exact h.zap hrun
        · split at hrun
          · cases hrun
            exact h
          · exact h.zap hrun
      · split at hrun
        · exact h.rebuild hrun
        · split at hrun
          · cases hrun
            exact h.mark slot
          · split at hrun
            · split at hrun
              · rename_i hroot
                exact (h.zapRootDirPath hroot).zap hrun
              · cases hrun
            · cases hrun
              exact h

theorem MonitorOk.processUnwatched (h : MonitorOk m)
    (hrun : InotifyDtree.processUnwatched a m ev = .ok (m', taken)) : MonitorOk m' := by
  unfold InotifyDtree.processUnwatched at hrun
  split at hrun
  · cases hrun
  · split at hrun
    · exact h.rebuild hrun
    · split at hrun
      · cases hrun
      · cases hrun
        exact h

theorem MonitorOk.processNext (h : MonitorOk m)
    (hrun : processNextInotifyEvent abortOnCacheProblem a m ev next firstTry = .ok (m', taken)) :
    MonitorOk m' := by
  unfold processNextInotifyEvent at hrun
  split at hrun
  · split at hrun
    · exact h.processWatched hrun
    · exact h.rebuild hrun
    · cases hrun
  · exact h.processUnwatched hrun

end Monitor

/-- One event, with any answers of the system. -/
def step (abortOnCacheProblem : Bool) (m : Monitor) :
    Answers × Event × Option Event × Bool → Option Monitor
  | (a, ev, next, firstTry) =>
    match processNextInotifyEvent abortOnCacheProblem a m ev next firstTry with
    | .ok (m, _) => some m
    | .error _ => none

/-- Whatever happens to the trees, and however the system answers: no watch descriptor is in
    the cache twice, and the program runs only while a root directory is left. -/
theorem run_keeps_cache {abortOnCacheProblem : Bool} {a : Answers} {argv : List Bytes}
    {m m' : Monitor} {es : List (Answers × Event × Option Event × Bool)} (hargv : argv ≠ [])
    (hstart : reinitialize a ⟨[], argv.map some, 0⟩ = .ok m)
    (hrun : Kernel.runEvents (step abortOnCacheProblem) m es = some m') : MonitorOk m' := by
  have hroots : MonitorOk ⟨[], argv.map some, 0⟩ := by
    refine ⟨cacheOk_nil, ?_, ?_⟩
    · simp [List.count_eq_zero.mpr]
    · simpa using List.length_pos_of_ne_nil hargv
  refine Kernel.runEvents_invariant MonitorOk ?_ (hroots.reinitialize hstart) hrun
  rintro m ⟨a, ev, next, firstTry⟩ m' hok hstep
  dsimp only [step] at hstep
  split at hstep
  · rename_i hnext
    cases hstep
    exact hok.processNext hnext
  · cases hstep

end LinuxPractice.Tlpi.InotifyDtree
