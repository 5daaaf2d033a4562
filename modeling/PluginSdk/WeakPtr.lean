import Mathlib.Data.Finset.Lattice.Fold
import Mathlib.Order.Lattice.Nat
import PluginSdk.WeakReferences

/-! `rack::WeakPtr`: the pointers to one object share a handle on the heap, which
counts them and outlives the object. An access to a handle or to an object that was
freed yields `none`, and so does freeing it again. -/

namespace PluginSdk

structure WeakHandle (O : Type) where
  ptr : Option O
  count : Nat

/-- The objects (`WeakBase`), the handles and the pointers of a program. What a function
says of an address that is not in use is left over. -/
structure WeakHeap (O H P : Type) where
  objects : Finset O
  objectHandle : O → Option H
  allocated : Finset H
  handle : H → WeakHandle O
  pointers : Finset P
  weakHandle : P → Option H

namespace WeakHeap

open WeakReferences

section

variable {O H P : Type} [DecidableEq O] [DecidableEq H] [DecidableEq P]

def init (handle : H → WeakHandle O) : WeakHeap O H P where
  objects := ∅
  objectHandle _ := none
  allocated := ∅
  handle
  pointers := ∅
  weakHandle _ := none

/-- `delete weakHandle`, after the object was told. -/
def removeHandle (s : WeakHeap O H P) (h : H) : Option (WeakHeap O H P) :=
  match (s.handle h).ptr with
  | none => some { s with allocated := s.allocated.erase h }
  | some oldPtr =>
    if oldPtr ∈ s.objects then
      some { s with
        objectHandle := Function.update s.objectHandle oldPtr none
        allocated := s.allocated.erase h }
    else none

def releaseHandle (s : WeakHeap O H P) (p : P) : Option (WeakHeap O H P) :=
  match s.weakHandle p with
  | none => some s
  | some h =>
    if h ∈ s.allocated then do
      let count := (s.handle h).count - 1
      let s := { s with handle := Function.update s.handle h { s.handle h with count } }
      let s ← if count = 0 then s.removeHandle h else some s
      some { s with weakHandle := Function.update s.weakHandle p none }
    else none

/-- `new WeakHandle(ptr)`, at an address that `alloc` picks. -/
def newHandle (alloc : Finset H → H) (s : WeakHeap O H P) (o : O) : WeakHeap O H P :=
  { s with
    allocated := insert (alloc s.allocated) s.allocated
    handle := Function.update s.handle (alloc s.allocated) ⟨some o, 0⟩
    objectHandle := Function.update s.objectHandle o (some (alloc s.allocated)) }

def obtainHandle (alloc : Finset H → H) (s : WeakHeap O H P) (p : P) (ptr : Option O) :
    Option (WeakHeap O H P) :=
  match ptr with
  | none => some s
  | some o =>
    if o ∈ s.objects then do
      let s := if s.objectHandle o = none then newHandle alloc s o else s
      let h ← s.objectHandle o
      if h ∈ s.allocated then
        some { s with
          weakHandle := Function.update s.weakHandle p (some h)
          handle := Function.update s.handle h
            { s.handle h with count := (s.handle h).count + 1 } }
      else none
    else none

def set (alloc : Finset H → H) (s : WeakHeap O H P) (p : P) (ptr : Option O) :
    Option (WeakHeap O H P) := do
  let s ← s.releaseHandle p
  s.obtainHandle alloc p ptr

def get (s : WeakHeap O H P) (p : P) : Option (Option O) :=
  match s.weakHandle p with
  | none => some none
  | some h => if h ∈ s.allocated then some (s.handle h).ptr else none

def getWeakCount (s : WeakHeap O H P) (o : O) : Option Nat :=
  match s.objectHandle o with
  | none => some 0
  | some h => if h ∈ s.allocated then some (s.handle h).count else none

def newBase (s : WeakHeap O H P) (o : O) : WeakHeap O H P :=
  { s with
    objects := insert o s.objects
    objectHandle := Function.update s.objectHandle o none }

/-- `~WeakBase`. -/
def deleteBase (s : WeakHeap O H P) (o : O) : Option (WeakHeap O H P) :=
  match s.objectHandle o with
  | none => some { s with objects := s.objects.erase o }
  | some h =>
    if h ∈ s.allocated then
      some { s with
        objects := s.objects.erase o
        handle := Function.update s.handle h { s.handle h with ptr := none } }
    else none

/-- A pointer starts without a handle. -/
def newPointer (s : WeakHeap O H P) (p : P) : WeakHeap O H P :=
  { s with
    pointers := insert p s.pointers
    weakHandle := Function.update s.weakHandle p none }

def deletePointer (alloc : Finset H → H) (s : WeakHeap O H P) (p : P) :
    Option (WeakHeap O H P) := do
  let s ← s.set alloc p none
  some { s with pointers := s.pointers.erase p }

def step (alloc : Finset H → H) (s : WeakHeap O H P) : Op O P → Option (WeakHeap O H P)
  | .create o => some (s.newBase o)
  | .delete o => s.deleteBase o
  | .construct p ptr => (s.newPointer p).set alloc p ptr
  | .copyConstruct p q => do
    let ptr ← s.get q
    (s.newPointer p).set alloc p ptr
  | .assign p q => do
    let ptr ← s.get q
    s.set alloc p ptr
  | .set p ptr => s.set alloc p ptr
  | .destroy p => s.deletePointer alloc p

/-- The pointers that share a handle. -/
def sharing (s : WeakHeap O H P) (h : H) : Finset P :=
  s.pointers.filter fun p => s.weakHandle p = some h

/-- What a pointer leads to. -/
def target (s : WeakHeap O H P) (p : P) : Option O :=
  (s.weakHandle p).bind fun h => (s.handle h).ptr

/-- A handle is on the heap while some pointer has it, counts these pointers, and knows its
object as long as the object knows it. -/
structure Sound (s : WeakHeap O H P) : Prop where
  allocated_iff : ∀ h, h ∈ s.allocated ↔ (s.sharing h).Nonempty
  count_eq : ∀ h ∈ s.allocated, (s.handle h).count = (s.sharing h).card
  ptr_iff : ∀ h ∈ s.allocated, ∀ o, (s.handle h).ptr = some o ↔
    o ∈ s.objects ∧ s.objectHandle o = some h
  object_handle : ∀ o ∈ s.objects, ∀ h, s.objectHandle o = some h → h ∈ s.allocated
  stray : ∀ p, p ∉ s.pointers → s.weakHandle p = none

structure Serves (s : WeakHeap O H P) (r : Refs O P) : Prop where
  sound : Sound s
  objects_eq : s.objects = r.objects
  pointers_eq : s.pointers = r.pointers
  target_eq : s.target = r.target

end

section

variable {O H P : Type} {s t : WeakHeap O H P}

theorem target_drop [DecidableEq P] {p : P} (hweak : t.weakHandle = Function.update s.weakHandle p none)
    (hptr : ∀ h, (t.handle h).ptr = (s.handle h).ptr) :
    t.target = Function.update s.target p none := by
  funext p'
  by_cases he : p' = p
  · subst he
    rw [Function.update_self, target, hweak, Function.update_self]
    rfl
  · rw [Function.update_of_ne he, target, hweak, Function.update_of_ne he]
    simp only [hptr]
    rfl

theorem target_join [DecidableEq P] {p : P} {h : H} {o : O}
    (hweak : t.weakHandle = Function.update s.weakHandle p (some h))
    (ho : (t.handle h).ptr = some o)
    (hptr : ∀ p' h', s.weakHandle p' = some h' → (t.handle h').ptr = (s.handle h').ptr) :
    t.target = Function.update s.target p (some o) := by
  funext p'
  by_cases he : p' = p
  · subst he
    rw [Function.update_self, target, hweak, Function.update_self]
    exact ho
  · rw [Function.update_of_ne he, target, target, hweak, Function.update_of_ne he]
    cases hh : s.weakHandle p' with
    | none => rfl
    | some h' => exact hptr p' h' hh

variable [DecidableEq H]

theorem mem_sharing {p : P} {h : H} :
    p ∈ s.sharing h ↔ p ∈ s.pointers ∧ s.weakHandle p = some h := Finset.mem_filter

theorem Sound.mem_pointers (hs : Sound s) {p : P} {h : H} (hp : s.weakHandle p = some h) :
    p ∈ s.pointers := by
  by_contra hn
  rw [hs.stray p hn] at hp
  cases hp

theorem Sound.mem_allocated (hs : Sound s) {p : P} {h : H} (hp : s.weakHandle p = some h) :
    h ∈ s.allocated :=
  (hs.allocated_iff h).mpr ⟨p, mem_sharing.mpr ⟨hs.mem_pointers hp, hp⟩⟩

/-- Counting does not change where a handle leads. -/
theorem ptr_counted (handle : H → WeakHandle O) (h h' : H) (count : Nat) :
    (Function.update handle h { handle h with count } h').ptr = (handle h').ptr := by
  by_cases he : h' = h
  · subst he
    rw [Function.update_self]
  · rw [Function.update_of_ne he]

theorem sharing_drop [DecidableEq P] {p : P} (hpointers : t.pointers = s.pointers)
    (hweak : t.weakHandle = Function.update s.weakHandle p none) (h : H) :
    t.sharing h = (s.sharing h).erase p := by
  ext p'
  rw [mem_sharing, Finset.mem_erase, mem_sharing, hpointers, hweak]
  by_cases he : p' = p
  · subst he
    simp
  · rw [Function.update_of_ne he]
    exact ⟨fun hh => ⟨he, hh⟩, fun hh => hh.2⟩

theorem sharing_join [DecidableEq P] {p : P} {h : H} (hp : p ∈ s.pointers) (hnone : s.weakHandle p = none)
    (hpointers : t.pointers = s.pointers)
    (hweak : t.weakHandle = Function.update s.weakHandle p (some h)) (h' : H) :
    t.sharing h' = if h' = h then insert p (s.sharing h) else s.sharing h' := by
  ext p'
  rw [mem_sharing, hpointers, hweak]
  by_cases hpp : p' = p
  · subst hpp
    rw [Function.update_self]
    by_cases he : h' = h
    · simp [he, hp]
    · simp [he, Ne.symm he, mem_sharing, hnone]
  · rw [Function.update_of_ne hpp]
    by_cases he : h' = h
    · simp [he, hpp, mem_sharing]
    · simp [he, mem_sharing]

theorem Sound.releaseHandle_shared [DecidableEq P] (hs : Sound s) {p : P} {h : H} (hp : s.weakHandle p = some h)
    (hmore : 1 < (s.sharing h).card) :
    Sound { s with
      handle := Function.update s.handle h { s.handle h with count := (s.handle h).count - 1 }
      weakHandle := Function.update s.weakHandle p none } := by
  have hsharing (h' : H) := sharing_drop (s := s) (p := p) (h := h') (t := { s with
      handle := Function.update s.handle h { s.handle h with count := (s.handle h).count - 1 }
      weakHandle := Function.update s.weakHandle p none }) rfl rfl
  have hself : p ∈ s.sharing h := mem_sharing.mpr ⟨hs.mem_pointers hp, hp⟩
  have hcard := Finset.card_erase_of_mem hself
  have hother {h' : H} (he : h' ≠ h) : (s.sharing h').erase p = s.sharing h' := by
    refine Finset.erase_eq_of_notMem fun hin => he ?_
    exact Option.some.inj ((mem_sharing.mp hin).2.symm.trans hp)
  refine ⟨fun h' => ?_, fun h' hh => ?_, fun h' hh o => ?_, hs.object_handle, fun p' hn => ?_⟩
  · rw [hsharing]
    by_cases he : h' = h
    · subst he
      refine iff_of_true (hs.mem_allocated hp) (Finset.card_pos.mp ?_)
      omega
    · rw [hother he]
      exact hs.allocated_iff h'
  · rw [hsharing]
    by_cases he : h' = h
    · subst he
      rw [hcard, ← hs.count_eq h' hh]
      simp only [Function.update_self]
    · rw [hother he, ← hs.count_eq h' hh]
      exact congrArg WeakHandle.count (Function.update_of_ne he _ _)
  · simp only [ptr_counted]
    exact hs.ptr_iff h' hh o
  · by_cases he : p' = p
    · subst he
      exact Function.update_self _ _ _
    · exact (Function.update_of_ne he _ _).trans (hs.stray p' hn)

theorem Sound.share [DecidableEq P] (hs : Sound s) {p : P} {h : H} {o : O} (hp : p ∈ s.pointers)
    (hnone : s.weakHandle p = none) (ho : o ∈ s.objects) (hh : s.objectHandle o = some h) :
    Sound { s with
      weakHandle := Function.update s.weakHandle p (some h)
      handle := Function.update s.handle h
        { s.handle h with count := (s.handle h).count + 1 } } := by
  have hmem := hs.object_handle o ho h hh
  have hnew : p ∉ s.sharing h := fun hin => by
    have hsome := (mem_sharing.mp hin).2
    rw [hnone] at hsome
    cases hsome
  have hsharing (h' : H) := sharing_join (s := s) (p := p) (h := h) (t := { s with
      weakHandle := Function.update s.weakHandle p (some h)
      handle := Function.update s.handle h
        { s.handle h with count := (s.handle h).count + 1 } }) hp hnone rfl rfl h'
  refine ⟨fun h' => ?_, fun h' hin => ?_, fun h' hin o' => ?_, hs.object_handle, fun p' hn => ?_⟩
  · rw [hsharing]
    by_cases he : h' = h
    · subst he
      rw [if_pos rfl]
      exact iff_of_true hmem ⟨p, Finset.mem_insert_self _ _⟩
    · rw [if_neg he]
      exact hs.allocated_iff h'
  · rw [hsharing]
    by_cases he : h' = h
    · subst he
      rw [if_pos rfl, Finset.card_insert_of_notMem hnew, ← hs.count_eq h' hin]
      simp only [Function.update_self]
    · rw [if_neg he, ← hs.count_eq h' hin]
      exact congrArg WeakHandle.count (Function.update_of_ne he _ _)
  · simp only [ptr_counted]
    exact hs.ptr_iff h' hin o'
  · refine (Function.update_of_ne ?_ _ _).trans (hs.stray p' hn)
    exact fun he => hn (he ▸ hp)

theorem serves_init (handle : H → WeakHandle O) : Serves (init handle : WeakHeap O H P) Refs.init :=
  ⟨⟨fun _ => iff_of_false (Finset.notMem_empty _) Finset.not_nonempty_empty,
    fun _ hin => absurd hin (Finset.notMem_empty _), fun _ hin => absurd hin (Finset.notMem_empty _),
    fun _ ho => absurd ho (Finset.notMem_empty _), fun _ _ => rfl⟩, rfl, rfl, rfl⟩

/-- A pointer leads to an object when both have the same handle. -/
theorem Sound.target_iff (hs : Sound s) {p : P} {o : O} (ho : o ∈ s.objects) :
    s.target p = some o ↔ ∃ h, s.weakHandle p = some h ∧ s.objectHandle o = some h := by
  rw [target, Option.bind_eq_some_iff]
  refine exists_congr fun h => and_congr_right fun hp => ?_
  rw [hs.ptr_iff h (hs.mem_allocated hp)]
  exact ⟨fun hh => hh.2, fun hh => ⟨ho, hh⟩⟩

theorem Serves.get {r : Refs O P} (h : Serves s r) (p : P) : s.get p = some (r.target p) := by
  rw [← h.target_eq, WeakHeap.get, target]
  cases hp : s.weakHandle p with
  | none => rfl
  | some h' =>
    simp only [if_pos (h.sound.mem_allocated hp)]
    rfl

theorem Serves.newPointer [DecidableEq P] {r : Refs O P} (h : Serves s r) {p : P} (hp : p ∉ s.pointers) :
    Serves (s.newPointer p) { r with pointers := insert p r.pointers } := by
  have hnone := h.sound.stray p hp
  have hweak : (s.newPointer p).weakHandle = s.weakHandle := by
    rw [WeakHeap.newPointer, ← hnone, Function.update_eq_self]
  have hsharing (h' : H) : (s.newPointer p).sharing h' = s.sharing h' := by
    ext p'
    rw [mem_sharing, mem_sharing, hweak]
    refine ⟨fun hh => ⟨h.sound.mem_pointers hh.2, hh.2⟩, fun hh => ⟨?_, hh.2⟩⟩
    exact Finset.mem_insert_of_mem hh.1
  refine ⟨⟨fun h' => ?_, fun h' hin => ?_, h.sound.ptr_iff, h.sound.object_handle, fun p' hn => ?_⟩,
    h.objects_eq, congrArg (insert p) h.pointers_eq, ?_⟩
  · rw [hsharing]
    exact h.sound.allocated_iff h'
  · rw [hsharing]
    exact h.sound.count_eq h' hin
  · rw [hweak]
    exact h.sound.stray p' fun hin => hn (Finset.mem_insert_of_mem hin)
  · rw [← h.target_eq]
    funext p'
    rw [target, hweak]
    rfl

theorem Serves.newBase [DecidableEq O] {r : Refs O P} (h : Serves s r) {o : O} (ho : o ∉ s.objects) :
    Serves (s.newBase o) { r with objects := insert o r.objects } := by
  refine ⟨⟨h.sound.allocated_iff, h.sound.count_eq, fun h' hin o' => ?_, fun o' ho' h' hh => ?_,
    h.sound.stray⟩, congrArg (insert o) h.objects_eq, h.pointers_eq, h.target_eq⟩
  · simp only [WeakHeap.newBase]
    rw [h.sound.ptr_iff h' hin]
    by_cases he : o' = o
    · subst he
      simp [ho]
    · simp [he]
  · simp only [WeakHeap.newBase] at ho' hh ⊢
    by_cases he : o' = o
    · subst he
      rw [Function.update_self] at hh
      cases hh
    · rw [Function.update_of_ne he] at hh
      exact h.sound.object_handle o' ((Finset.mem_insert.mp ho').resolve_left he) h' hh

variable [DecidableEq O]

/-- What the last pointer that goes leaves behind. -/
theorem removeHandle_eq {h : H} (hobject : ∀ o, (s.handle h).ptr = some o → o ∈ s.objects) :
    s.removeHandle h = some { s with
      allocated := s.allocated.erase h
      objectHandle := fun o => if (s.handle h).ptr = some o then none else s.objectHandle o } := by
  unfold removeHandle
  split
  · next hptr => simp [hptr]
  · next o hptr =>
    rw [if_pos (hobject o hptr)]
    have hupdate : Function.update s.objectHandle o none =
        fun o' => if (s.handle h).ptr = some o' then none else s.objectHandle o' := by
      funext o'
      by_cases he : o' = o
      · subst he
        rw [Function.update_self, if_pos hptr]
      · rw [Function.update_of_ne he, if_neg]
        exact fun hc => he (Option.some.inj (hc.symm.trans hptr))
    rw [hupdate]

variable [DecidableEq P]

theorem Sound.releaseHandle_last (hs : Sound s) {p : P} {h : H} (hp : s.weakHandle p = some h)
    (hlast : (s.sharing h).card = 1) :
    Sound { s with
      handle := Function.update s.handle h { s.handle h with count := 0 }
      allocated := s.allocated.erase h
      objectHandle := fun o => if (s.handle h).ptr = some o then none else s.objectHandle o
      weakHandle := Function.update s.weakHandle p none } := by
  have hmem := hs.mem_allocated hp
  have hsharing (h' : H) := sharing_drop (s := s) (p := p) (h := h') (t := { s with
      handle := Function.update s.handle h { s.handle h with count := 0 }
      allocated := s.allocated.erase h
      objectHandle := fun o => if (s.handle h).ptr = some o then none else s.objectHandle o
      weakHandle := Function.update s.weakHandle p none }) rfl rfl
  have hself : p ∈ s.sharing h := mem_sharing.mpr ⟨hs.mem_pointers hp, hp⟩
  have hother {h' : H} (he : h' ≠ h) : (s.sharing h').erase p = s.sharing h' := by
    refine Finset.erase_eq_of_notMem fun hin => he ?_
    exact Option.some.inj ((mem_sharing.mp hin).2.symm.trans hp)
  have hnone : (s.sharing h).erase p = ∅ := by
    rw [← Finset.card_eq_zero, Finset.card_erase_of_mem hself, hlast]
  constructor
  · intro h'
    rw [hsharing, Finset.mem_erase]
    by_cases he : h' = h
    · subst he
      simp [hnone]
    · rw [hother he, ← hs.allocated_iff]
      exact ⟨fun hh => hh.2, fun hh => ⟨he, hh⟩⟩
  · intro h' hh
    obtain ⟨he, hin⟩ := Finset.mem_erase.mp hh
    rw [hsharing, hother he, ← hs.count_eq h' hin]
    exact congrArg WeakHandle.count (Function.update_of_ne he _ _)
  · intro h' hh o
    obtain ⟨he, hin⟩ := Finset.mem_erase.mp hh
    simp only [ptr_counted]
    rw [hs.ptr_iff h' hin o]
    by_cases ho : (s.handle h).ptr = some o
    · have hback := ((hs.ptr_iff h hmem o).mp ho).2
      rw [if_pos ho, hback]
      simp [Ne.symm he]
    · rw [if_neg ho]
  · intro o ho h' hh
    by_cases hptr : (s.handle h).ptr = some o
    · simp only [if_pos hptr] at hh
      cases hh
    · simp only [if_neg hptr] at hh
      refine Finset.mem_erase.mpr ⟨fun he => hptr ?_, hs.object_handle o ho h' hh⟩
      exact (hs.ptr_iff h hmem o).mpr ⟨ho, he ▸ hh⟩
  · intro p' hn
    by_cases he : p' = p
    · subst he
      exact Function.update_self _ _ _
    · exact (Function.update_of_ne he _ _).trans (hs.stray p' hn)

theorem Sound.releaseHandle (hs : Sound s) (p : P) :
    ∃ t, s.releaseHandle p = some t ∧ Sound t ∧ t.objects = s.objects ∧
      t.pointers = s.pointers ∧ t.weakHandle p = none ∧
      t.target = Function.update s.target p none := by
  cases hp : s.weakHandle p with
  | none =>
    refine ⟨s, by rw [WeakHeap.releaseHandle, hp], hs, rfl, rfl, hp, target_drop ?_ fun _ => rfl⟩
    rw [← hp, Function.update_eq_self]
  | some h =>
    have hmem := hs.mem_allocated hp
    have hcount := hs.count_eq h hmem
    have hpos := Finset.card_pos.mpr ((hs.allocated_iff h).mp hmem)
    by_cases hlast : (s.sharing h).card = 1
    · have hzero : (s.handle h).count - 1 = 0 := by omega
      have hremove := removeHandle_eq (h := h) (s := { s with
          handle := Function.update s.handle h { s.handle h with count := 0 } }) fun o ho => by
        rw [ptr_counted] at ho
        exact ((hs.ptr_iff h hmem o).mp ho).1
      simp only [ptr_counted] at hremove
      refine ⟨_, ?_, hs.releaseHandle_last hp hlast, rfl, rfl, Function.update_self _ _ _,
        target_drop rfl (ptr_counted _ _ · _)⟩
      simp only [WeakHeap.releaseHandle, hp, if_pos hmem, hzero, if_true, Option.bind_eq_bind]
      rw [hremove]
      rfl
    · have hnz : (s.handle h).count - 1 ≠ 0 := by omega
      refine ⟨_, ?_, hs.releaseHandle_shared hp (by omega), rfl, rfl, Function.update_self _ _ _,
        target_drop rfl (ptr_counted _ _ · _)⟩
      simp only [WeakHeap.releaseHandle, hp, if_pos hmem, if_neg hnz, Option.bind_eq_bind,
        Option.bind_some]

theorem Sound.shareNew (hs : Sound s) {p : P} {h : H} {o : O} (hp : p ∈ s.pointers)
    (hnone : s.weakHandle p = none) (ho : o ∈ s.objects) (hobject : s.objectHandle o = none)
    (hfree : h ∉ s.allocated) :
    Sound { s with
      allocated := insert h s.allocated
      objectHandle := Function.update s.objectHandle o (some h)
      weakHandle := Function.update s.weakHandle p (some h)
      handle := Function.update s.handle h ⟨some o, 1⟩ } := by
  have hempty : s.sharing h = ∅ := by
    rw [← Finset.not_nonempty_iff_eq_empty, ← hs.allocated_iff]
    exact hfree
  have hsharing (h' : H) := sharing_join (s := s) (p := p) (h := h) (t := { s with
      allocated := insert h s.allocated
      objectHandle := Function.update s.objectHandle o (some h)
      weakHandle := Function.update s.weakHandle p (some h)
      handle := Function.update s.handle h ⟨some o, 1⟩ }) hp hnone rfl rfl h'
  have hold {h' : H} (he : h' ≠ h) (hin : h' ∈ insert h s.allocated) : h' ∈ s.allocated :=
    (Finset.mem_insert.mp hin).resolve_left he
  refine ⟨fun h' => ?_, fun h' hin => ?_, fun h' hin o' => ?_, fun o' ho' h' hh => ?_, fun p' hn => ?_⟩
  · rw [hsharing]
    by_cases he : h' = h
    · subst he
      rw [if_pos rfl]
      exact iff_of_true (Finset.mem_insert_self _ _) ⟨p, Finset.mem_insert_self _ _⟩
    · rw [if_neg he, ← hs.allocated_iff]
      exact ⟨hold he, Finset.mem_insert_of_mem⟩
  · rw [hsharing]
    by_cases he : h' = h
    · subst he
      rw [if_pos rfl, hempty]
      simp only [Function.update_self]
      rfl
    · rw [if_neg he, ← hs.count_eq h' (hold he hin)]
      exact congrArg WeakHandle.count (Function.update_of_ne he _ _)
  · by_cases he : h' = h
    · subst he
      simp only [Function.update_self, Option.some.injEq]
      by_cases hoo : o' = o
      · subst hoo
        simp [ho]
      · simp only [Function.update_of_ne hoo]
        refine iff_of_false (fun hc => hoo hc.symm) fun hc => hfree ?_
        exact hs.object_handle o' hc.1 h' hc.2
    · simp only [Function.update_of_ne he]
      rw [hs.ptr_iff h' (hold he hin)]
      by_cases hoo : o' = o
      · subst hoo
        simp [hobject, Ne.symm he]
      · rw [Function.update_of_ne hoo]
  · by_cases hoo : o' = o
    · subst hoo
      simp only [Function.update_self, Option.some.injEq] at hh
      exact hh ▸ Finset.mem_insert_self _ _
    · simp only [Function.update_of_ne hoo] at hh
      exact Finset.mem_insert_of_mem (hs.object_handle o' ho' h' hh)
  · refine (Function.update_of_ne ?_ _ _).trans (hs.stray p' hn)
    exact fun he => hn (he ▸ hp)

theorem Sound.obtainHandle {alloc : Finset H → H} (halloc : ∀ A, alloc A ∉ A) (hs : Sound s)
    {p : P} (ptr : Option O) (hp : p ∈ s.pointers) (hnone : s.weakHandle p = none)
    (hptr : ∀ o ∈ ptr, o ∈ s.objects) :
    ∃ t, s.obtainHandle alloc p ptr = some t ∧ Sound t ∧ t.objects = s.objects ∧
      t.pointers = s.pointers ∧ t.target = Function.update s.target p ptr := by
  cases ptr with
  | none =>
    refine ⟨s, rfl, hs, rfl, rfl, target_drop ?_ fun _ => rfl⟩
    rw [← hnone, Function.update_eq_self]
  | some o =>
    have ho := hptr o rfl
    cases hobject : s.objectHandle o with
    | some h =>
      have hmem := hs.object_handle o ho h hobject
      have hback := (hs.ptr_iff h hmem o).mpr ⟨ho, hobject⟩
      refine ⟨_, ?_, hs.share hp hnone ho hobject, rfl, rfl,
        target_join rfl ((ptr_counted _ _ _ _).trans hback) fun _ _ _ => ptr_counted _ _ _ _⟩
      simp [WeakHeap.obtainHandle, ho, hobject, hmem]
    | none =>
      have hfree := halloc s.allocated
      refine ⟨_, ?_, hs.shareNew hp hnone ho hobject hfree, rfl, rfl, target_join rfl ?_ ?_⟩
      · simp [WeakHeap.obtainHandle, ho, hobject, newHandle]
      · simp only [Function.update_self]
      · intro p' h' hh
        have hne : h' ≠ alloc s.allocated := fun he => hfree (he ▸ hs.mem_allocated hh)
        simp only [Function.update_of_ne hne]

theorem Serves.set {alloc : Finset H → H} (halloc : ∀ A, alloc A ∉ A) {r : Refs O P}
    (h : Serves s r) {p : P} {ptr : Option O} (hp : p ∈ s.pointers)
    (hptr : ∀ o ∈ ptr, o ∈ s.objects) :
    ∃ t, s.set alloc p ptr = some t ∧ Serves t { r with target := Function.update r.target p ptr } := by
  obtain ⟨t, ht, hst, hobjects, hpointers, hnone, htarget⟩ := h.sound.releaseHandle p
  obtain ⟨u, hu, hsu, hobjects', hpointers', htarget'⟩ := hst.obtainHandle halloc ptr
    (hpointers ▸ hp) hnone (hobjects ▸ hptr)
  refine ⟨u, by rw [WeakHeap.set, ht]; exact hu, hsu, ?_, ?_, ?_⟩
  · rw [hobjects', hobjects, h.objects_eq]
  · rw [hpointers', hpointers, h.pointers_eq]
  · rw [htarget', htarget, Function.update_idem, h.target_eq]

theorem Serves.deleteBase {r : Refs O P} (h : Serves s r) {o : O}
    (ho : o ∈ s.objects) :
    ∃ t, s.deleteBase o = some t ∧ Serves t (r.next (.delete o)) := by
  have hs := h.sound
  cases hobject : s.objectHandle o with
  | none =>
    have hno (p : P) : s.target p ≠ some o := by
      intro ht
      obtain ⟨h', -, hh⟩ := (hs.target_iff ho).mp ht
      rw [hobject] at hh
      cases hh
    refine ⟨{ s with objects := s.objects.erase o }, by rw [WeakHeap.deleteBase, hobject],
      ⟨hs.allocated_iff, hs.count_eq, fun h' hin o' => ?_, fun o' ho' => ?_, hs.stray⟩,
      congrArg (Finset.erase · o) h.objects_eq, h.pointers_eq, ?_⟩
    · rw [hs.ptr_iff h' hin, Finset.mem_erase]
      refine and_congr_left fun hh => ⟨fun hin' => ⟨?_, hin'⟩, fun hh' => hh'.2⟩
      rintro rfl
      rw [hobject] at hh
      cases hh
    · exact hs.object_handle o' (Finset.mem_of_mem_erase ho')
    · funext p
      simp only [Refs.next, ← h.target_eq, if_neg (hno p)]
      rfl
  | some h' =>
    have hmem := hs.object_handle o ho h' hobject
    have hback := (hs.ptr_iff h' hmem o).mpr ⟨ho, hobject⟩
    refine ⟨{ s with
      objects := s.objects.erase o
      handle := Function.update s.handle h' { s.handle h' with ptr := none } },
      by simp only [WeakHeap.deleteBase, hobject, if_pos hmem],
      ⟨hs.allocated_iff, fun h'' hin => ?_, fun h'' hin o' => ?_, fun o' ho' => ?_, hs.stray⟩,
      congrArg (Finset.erase · o) h.objects_eq, h.pointers_eq, ?_⟩
    · refine Eq.trans ?_ (hs.count_eq h'' hin)
      by_cases he : h'' = h'
      · subst he
        simp only [Function.update_self]
      · simp only [Function.update_of_ne he]
    · by_cases he : h'' = h'
      · subst he
        simp only [Function.update_self, Finset.mem_erase]
        refine iff_of_false (fun hc => by cases hc) fun hc => hc.1.1 ?_
        exact Option.some.inj (((hs.ptr_iff h'' hmem o').mpr ⟨hc.1.2, hc.2⟩).symm.trans hback)
      · simp only [Function.update_of_ne he]
        rw [hs.ptr_iff h'' hin, Finset.mem_erase]
        refine and_congr_left fun hh => ⟨fun hin' => ⟨?_, hin'⟩, fun hh' => hh'.2⟩
        rintro rfl
        exact he (Option.some.inj (hh.symm.trans hobject))
    · exact hs.object_handle o' (Finset.mem_of_mem_erase ho')
    · funext p
      simp only [Refs.next, ← h.target_eq, target]
      cases hp : s.weakHandle p with
      | none => rfl
      | some h'' =>
        by_cases he : h'' = h'
        · subst he
          simp [hback]
        · have hno : (s.handle h'').ptr ≠ some o := fun hc => he
            (Option.some.inj (((hs.ptr_iff h'' (hs.mem_allocated hp) o).mp hc).2.symm.trans hobject))
          simp [he, hno]

theorem Serves.deletePointer (alloc : Finset H → H) {r : Refs O P} (h : Serves s r) (p : P) :
    ∃ t, s.deletePointer alloc p = some t ∧ Serves t (r.next (.destroy p)) := by
  obtain ⟨t, ht, hst, hobjects, hpointers, hnone, htarget⟩ := h.sound.releaseHandle p
  have hsharing (h' : H) :
      WeakHeap.sharing { t with pointers := t.pointers.erase p } h' = t.sharing h' := by
    ext p'
    rw [mem_sharing, mem_sharing, Finset.mem_erase]
    refine ⟨fun hh => ⟨hh.1.2, hh.2⟩, fun hh => ⟨⟨?_, hh.1⟩, hh.2⟩⟩
    rintro rfl
    rw [hnone] at hh
    cases hh.2
  refine ⟨{ t with pointers := t.pointers.erase p }, ?_,
    ⟨fun h' => ?_, fun h' hin => ?_, hst.ptr_iff, hst.object_handle, fun p' hn => ?_⟩,
    hobjects.trans h.objects_eq, ?_, ?_⟩
  · rw [WeakHeap.deletePointer, WeakHeap.set, ht]
    rfl
  · rw [hsharing]
    exact hst.allocated_iff h'
  · rw [hsharing]
    exact hst.count_eq h' hin
  · by_cases he : p' = p
    · exact he ▸ hnone
    · exact hst.stray p' fun hin => hn (Finset.mem_erase.mpr ⟨he, hin⟩)
  · rw [Refs.next, hpointers, h.pointers_eq]
  · exact htarget.trans (congrArg (Function.update · p none) h.target_eq)

theorem Serves.step {alloc : Finset H → H} (halloc : ∀ A, alloc A ∉ A) {r : Refs O P}
    (h : Serves s r) (hr : Refs.Valid r) {op : Op O P} (hop : r.Admits op) :
    ∃ t, s.step alloc op = some t ∧ Serves t (r.next op) := by
  have hobjects := h.objects_eq
  have hpointers := h.pointers_eq
  cases op with
  | create o => exact ⟨_, rfl, h.newBase (hobjects ▸ hop)⟩
  | delete o => exact h.deleteBase (hobjects ▸ hop)
  | construct p ptr =>
    exact (h.newPointer (hpointers ▸ hop.1)).set halloc (Finset.mem_insert_self p _)
      (hobjects ▸ hop.2)
  | copyConstruct p q =>
    rw [WeakHeap.step, h.get q]
    exact (h.newPointer (hpointers ▸ hop.1)).set halloc (Finset.mem_insert_self p _)
      (hobjects ▸ hr.target_mem q)
  | assign p q =>
    rw [WeakHeap.step, h.get q]
    exact h.set halloc (hpointers ▸ hop.1) (hobjects ▸ hr.target_mem q)
  | set p ptr => exact h.set halloc (hpointers ▸ hop.1) (hobjects ▸ hop.2)
  | destroy p => exact h.deletePointer alloc p

theorem serves_run {alloc : Finset H → H} (halloc : ∀ A, alloc A ∉ A) (handle : H → WeakHandle O)
    {ops : List (Op O P)} (hops : Refs.Admitted ops) :
    ∃ s, PartialRun.run (step alloc) (init handle) ops = some s ∧ Serves s (Refs.init.run ops) := by
  refine PartialRun.run_induction (P := fun ops s => Serves s (Refs.init.run ops) ∧
    Refs.Valid (Refs.init.run ops)) ⟨serves_init handle, Refs.valid_run (PartialRun.follows_nil _)⟩
    ?_ hops |>.imp fun s hs => ⟨hs.1, hs.2.1⟩
  rintro ops op s ⟨hs, hr⟩ hop
  obtain ⟨t, ht, hst⟩ := hs.step halloc hr hop
  exact ⟨t, ht, by rw [Refs.run_concat]; exact hst, by rw [Refs.run_concat]; exact hr.next hop⟩

/-- No handle or object is used after it was freed and none is freed twice, a pointer leads to
the object it was given until that is deleted, an object is told how many pointers lead to it,
and a handle is on the heap exactly while some pointer has it. -/
theorem weakPtr_run {alloc : Finset H → H} (halloc : ∀ A, alloc A ∉ A) (handle : H → WeakHandle O)
    {ops : List (Op O P)} (hops : Refs.Admitted ops) :
    let r := Refs.init.run ops
    ∃ s, PartialRun.run (step alloc) (init handle) ops = some s ∧
      (∀ p ∈ r.pointers, s.get p = some (r.target p)) ∧
      (∀ o ∈ r.objects, s.getWeakCount o = some (r.holders o).card) ∧
      ∀ h, h ∈ s.allocated ↔ ∃ p ∈ r.pointers, s.weakHandle p = some h := by
  intro r
  obtain ⟨s, hrun, hs⟩ := serves_run halloc handle hops
  refine ⟨s, hrun, fun p _ => hs.get p, fun o ho => ?_, fun h => ?_⟩
  · rw [← hs.objects_eq] at ho
    have hholders : r.holders o = s.pointers.filter fun p => s.objectHandle o ≠ none ∧
        s.weakHandle p = s.objectHandle o := by
      rw [Refs.holders, ← hs.pointers_eq, ← hs.target_eq]
      refine Finset.filter_congr fun p _ => ?_
      rw [hs.sound.target_iff ho]
      cases s.objectHandle o <;> simp
    rw [hholders, getWeakCount]
    cases hobject : s.objectHandle o with
    | none => simp
    | some h =>
      have hin := hs.sound.object_handle o ho h hobject
      simp only [if_pos hin, hs.sound.count_eq h hin, sharing]
      simp
  · rw [hs.sound.allocated_iff]
    refine ⟨fun ⟨p, hp⟩ => ?_, fun ⟨p, hp, hh⟩ => ⟨p, mem_sharing.mpr ⟨?_, hh⟩⟩⟩
    · obtain ⟨hin, hh⟩ := mem_sharing.mp hp
      exact ⟨p, hs.pointers_eq ▸ hin, hh⟩
    · rw [hs.pointers_eq]
      exact hp

theorem weakPtr_run_deleted :
    ∃ s : WeakHeap Nat Nat Nat,
      PartialRun.run (step fun A => A.sup id + 1) (init fun _ => ⟨none, 0⟩)
        [.create 3, .construct 0 (some 3), .copyConstruct 1 0, .delete 3, .destroy 0] = some s ∧
      s.get 1 = some none := by
  have hops : Refs.Admitted ([.create 3, .construct 0 (some 3), .copyConstruct 1 0, .delete 3,
      .destroy 0] : List (Op Nat Nat)) := PartialRun.follows_of_prefixes (by decide)
  have hfresh (A : Finset Nat) : A.sup id + 1 ∉ A := fun hin =>
    absurd (Finset.le_sup (f := id) hin) (Nat.not_succ_le_self _)
  obtain ⟨s, hrun, hget, -⟩ := weakPtr_run hfresh (fun _ => ⟨none, 0⟩) hops
  exact ⟨s, hrun, hget 1 (by decide)⟩

end

end WeakHeap

end PluginSdk
