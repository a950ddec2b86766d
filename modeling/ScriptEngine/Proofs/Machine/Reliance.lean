import ScriptEngine.Proofs.Machine.Sessions

/-!
# What can be relied on

A host and the scripts it runs take the hashes of strings, store entries, assign to the bytes of
strings and collect, in any order.  Whatever they do, a string whose hash has been taken stays as it
is while it is there, a name has its one cell for good, and an entry is found under each key that is
the same as its own for as long as nobody removes it.

* `World.Sparing`, `World.Leaving`   what happens between two looks at a string or at an entry;
* `World.Reliable`                   what can be relied on in a state;
* `Host.hashes_reliable`             it can be at all times.
-/

namespace ScriptEngine

namespace World

open Relation (ReflTransGen)

/-- Something happens to the cells, and a cell still holds an object afterwards. -/
def Sparing (a : Addr) (w w' : World) : Prop := Stroke w w' ∧ w'.heap.body a ≠ .free

/-- Something happens to the cells, but a hash is still there and no key like this is removed from it. -/
def Leaving (a : Addr) (key : Value) (w w' : World) : Prop :=
  Sparing a w w' ∧ ∀ k, w.heap.keysEqual key k = true → w' ≠ w.removed (.obj a) k

/-- What can be relied on. -/
structure Reliable (w : World) : Prop where
  /-- A string remembers no hash but that of its bytes. -/
  honest : ∀ a s x, w.heap.body a = .str s → s.hash = some x → x = hashBytes s.bytes
  /-- One whose hash has been taken stays as it is while it is there. -/
  frozen : ∀ a s, w.heap.body a = .str s → s.hash.isSome = true →
    ∀ w', ReflTransGen (Sparing a) w w' → w'.heap.body a = .str s
  /-- An entry is under the hash of its key, and so stays. -/
  filed : ∀ a t, w.heap.body a = .hash t → ∀ e ∈ t.entries,
    (e.hash, e.interned) = (w.heap.hashKey e.key).1 ∧
      ∀ k, e.key = .obj k → w.heap.body k ≠ .free ∧
        ∀ s, w.heap.body k = .str s → s.hash.isSome = true
  /-- The string of a name stays in its cell, which belongs to no other name. -/
  interned : ∀ name w', Via { w with heap := (w.heap.intern name).2 } w' →
    w'.heap.body (w.heap.intern name).1 = .str (.ofName name) ∧
      ∀ other, (w'.heap.intern other).1 = (w.heap.intern name).1 ↔ other = name
  /-- The strings of names are those that interning gives. -/
  named : ∀ a s, w.heap.body a = .str s → s.interned = true → w.heap.intern s.bytes = (a, w.heap)
  /-- An entry keeps its key, and is found under every key that is the same. -/
  found : ∀ a key v, w.heap.Stores a key v → ∀ w', ReflTransGen (Leaving a key) w w' →
    (∀ k s, key = .obj k → w.heap.body k = .str s → w'.heap.body k = .str s) ∧
      ∃ t v', w'.heap.body a = .hash t ∧ ∀ probe, w'.heap.keysEqual key probe = true →
        w'.heap.lookup t probe (w'.heap.hashKey probe).1.1 (w'.heap.hashKey probe).1.2 = some v'

section

variable {w w' : World} {a : Addr}

theorem via_of_sparing (h : ReflTransGen (Sparing a) w w') : w.Via w' :=
  ReflTransGen.mono (fun _ _ hn => hn.1) _ _ h

theorem via_of_leaving {key : Value} (h : ReflTransGen (Leaving a key) w w') : w.Via w' :=
  ReflTransGen.mono (fun _ _ hn => hn.1.1) _ _ h

/-- A string whose hash has been taken stays while it is there. -/
theorem Consistent.frozen (hc : w.Consistent) {s : Str} (hs : w.heap.body a = .str s)
    (hash : s.hash.isSome = true) (h : ReflTransGen (Sparing a) w w') : w'.heap.body a = .str s := by
  induction h with
  | refl => exact hs
  | tail h hn ih =>
    have hc' := (via_of_sparing h).consistent hc
    exact (hn.1.frozen hc' ih hash).resolve_right hn.2

/-- An entry stays, with the string that is its key. -/
theorem Consistent.stores (hc : w.Consistent) {key v : Value} (hs : w.heap.Stores a key v)
    (h : ReflTransGen (Leaving a key) w w') :
    (∃ v', w'.heap.Stores a key v') ∧
      ∀ k s, key = .obj k → w.heap.body k = .str s → w'.heap.body k = .str s := by
  induction h with
  | refl => exact ⟨⟨v, hs⟩, fun _ _ _ hb => hb⟩
  | @tail u u' h hn ih =>
    obtain ⟨⟨x, hx⟩, hkey⟩ := ih
    have hc' := (via_of_leaving h).consistent hc
    obtain ⟨y, hy⟩ := (hn.1.1.stores hc' hx hn.1.2).resolve_right fun ⟨k, hk, e⟩ => hn.2 k hk e
    refine ⟨⟨y, hy⟩, fun k s e hb => ?_⟩
    -- the hash of the key has been taken before, and the entry keeps the key from being freed
    have hbefore := Heap.Stores.frozen hx hc'.heap k e
    have hafter := Heap.Stores.frozen hy (hn.1.1.consistent hc').heap k e
    exact (hn.1.1.frozen hc' (hkey k s e hb) (hbefore.2 s (hkey k s e hb))).resolve_right hafter.1

theorem Consistent.reliable (hc : w.Consistent) : w.Reliable where
  honest a s x hs hx := hc.heap.honest a s hs x hx
  frozen a s hs hash w' h := hc.frozen hs hash h
  filed a t ht e he := ⟨(hc.heap.files a t ht).agrees.hashed e he, (hc.heap.files a t ht).frozen e he⟩
  interned name w' h := by
    have hc₁ := (Stroke.intern w name).consistent hc
    have hc' := h.consistent hc₁
    have hname := h.names hc₁ (hc.placed.stocked.intern name).symbol
    refine ⟨hc'.heap.registered name _ hname, fun other => ⟨fun e => ?_, ?_⟩⟩
    · have hi := hc'.placed.stocked.intern other
      have hc'' := (hc'.heap.intern hc'.placed.stocked other).1
      have hother := hc''.registered other _ hi.symbol
      rw [e, hc''.registered name _ (hi.old name _ hname)] at hother
      exact (congrArg Str.bytes (Body.str.inj hother)).symm
    · rintro rfl
      rw [Heap.intern.eq_1 w'.heap, hname]
  named a s hs hi := by
    rw [Heap.intern, hc.heap.listed a s hs hi]
  found a key v hs w' h := by
    obtain ⟨⟨v', t, ht, hm⟩, hkey⟩ := hc.stores hs h
    refine ⟨hkey, t, v', ht, fun probe hp => ?_⟩
    obtain ⟨e, he, hpair⟩ := List.mem_map.mp hm
    obtain ⟨rfl, rfl⟩ := Prod.mk.inj hpair
    exact ((via_of_leaving h).consistent hc).heap.finds ht he hp

end

end World

namespace Host

open Relation (ReflTransGen)

/-- **Hashes can be relied on**, in every state a host and its scripts come to, and in every state
between two of them. -/
theorem hashes_reliable {s s' : State} (h : Reached s) (h' : ReflTransGen Next s s') :
    s.world.Via s'.world ∧ ∀ w, s.world.Via w → w.Reliable :=
  ⟨(along_moves h' h.good).1.via, fun _ hv => (hv.consistent h.good.consistent).reliable⟩

/-- A context is made, and a unit compiled in it. -/
theorem hashes_reliable_compiling :
    let w := (World.new {}).newContext.2.enter
    let w' := World.after (((Deed.compile (Bytes.ofString "x.y = \"z\"; x") "f" 1).act 0).run w)
    w.Via w'.leave ∧ ∀ u, w.Via u → u.Reliable := by
  have hnew : Next (.idle (World.new {})) (.idle (World.new {}).newContext.2) := .newContext _
  have henter := Next.enter (World.new {}).newContext.2
  have hused : (World.new {}).newContext.2.enter.InUse 0 := ⟨Nat.zero_lt_one, nofun⟩
  exact hashes_reliable ⟨{}, (ReflTransGen.single hnew).tail henter⟩
    ((ReflTransGen.single (.deed hused trivial)).tail (.leave _))

end Host

end ScriptEngine
