/-
Broken channels and the pool of an RpcClient (src/rpc_client_impl.cc, include/rpc/rpc_channel.inl).

getOrCreateChannel goes by m_connected, which connect sets and close clears. CallMethodAsync, which sees the end of the
stream, the errors and the timeouts, leaves it alone.

- `gives`: what getOrCreateChannel returns.
- `unbroken_iff`: in every run it returns no broken channel exactly if no channel breaks while the pool offers it.
- `reused`: a channel whose peer has closed the stream.
-/
import MCoroRpc.Rpc.Pool

namespace MCoroRpc.RpcClient.Shared

open TcpStream (Bytes)

/-- what getOrCreateChannel returns, at once or behind its connect -/
def gives (s : Shared) : Label → Option ℕ
  | .getOrCreateChannel addr => s.offers addr
  | .connected k result => if result.isTimeout then none else s.connecting[k]?.map Prod.snd
  | _ => none

/-- getOrCreateChannel returns no broken channel, whatever the next lookup in this state is -/
def Unbroken (s : Shared) : Prop := ∀ l id, s.gives l = some id → id ∉ s.broken

/-- no call breaks a channel that the pool offers -/
def Spared (s : Shared) (l : Label) : Prop :=
  ∀ id met, l = .callMethodAsync id met → met.breaks = true → s.Given id → ∀ addr, s.offers addr ≠ some id

/-- neither what the pool offers nor what connects is broken -/
structure Sound (s : Shared) : Prop where
  offered : ∀ addr id, s.offers addr = some id → id ∉ s.broken
  connecting : ∀ p ∈ s.connecting, p.2 ∉ s.broken
  made : ∀ id ∈ s.broken, id < s.conns.length

section
variable {s s' : Shared} {conns : List Conn} {id id' k : ℕ} {addr : Bytes} {result : WaitForResult Unit} {l : Label}

/-! ## What the pool offers -/

/-- a new channel is not connected -/
theorem isConnected_append {host : Bytes} {port : ℤ} (h : isConnected (conns ++ [⟨host, port, false⟩]) id = true) :
    isConnected conns id = true := by
  obtain ⟨conn, hconn, hc⟩ := isConnected_iff.1 h
  rcases lt_or_ge id conns.length with hlt | hle
  · rw [List.getElem?_append_left hlt] at hconn
    exact isConnected_iff.2 ⟨conn, hconn, hc⟩
  · rw [List.getElem?_append_right hle] at hconn
    rw [List.mem_singleton.1 (List.mem_of_getElem? hconn)] at hc
    cases hc

theorem isConnected_modify {ok : Bool}
    (h : isConnected (conns.modify id fun conn => { conn with connected := ok }) id' = true) :
    id' = id ∨ isConnected conns id' = true := by
  by_cases hid : id' = id
  · exact .inl hid
  · rw [isConnected, List.getElem?_modify_ne _ _ (Ne.symm hid)] at h
    exact .inr h

theorem isConnected_close {ids : Multiset ℕ} (h : isConnected (close ids conns) id = true) :
    isConnected conns id = true := by
  obtain ⟨conn, hconn, hc⟩ := isConnected_iff.1 h
  rw [close, List.getElem?_mapIdx] at hconn
  obtain ⟨old, hold, rfl⟩ := Option.map_eq_some_iff.1 hconn
  refine isConnected_iff.2 ⟨old, hold, ?_⟩
  split_ifs at hc
  exact hc

/-! ## Steps -/

theorem lookup_sound (h : Sound s) (hl : Lookup s addr s') : Sound s' := by
  cases hl with
  | done => exact h
  | connects host port =>
    refine ⟨?_, ?_, ?_⟩
    · intro addr' id' hoffers
      obtain ⟨hlookup, hc⟩ := offers_iff.1 hoffers
      exact h.offered addr' id' (offers_iff.2 ⟨hlookup, isConnected_append hc⟩)
    · intro p hp hbroken
      rcases List.mem_append.1 hp with hp | hp
      · exact h.connecting p hp hbroken
      · rw [List.mem_singleton.1 hp] at hbroken
        exact lt_irrefl _ (h.made _ hbroken)
    · intro id' hid
      rw [List.length_append]
      exact Nat.lt_add_right _ (h.made id' hid)

/-- the channel that has connected is not broken, and it is the only one that changes -/
theorem connected_sound (h : Sound s) (hc : Connected s k result s') : Sound s' := by
  have hrest : ∀ p ∈ s.connecting.eraseIdx k, p.2 ∉ s.broken := fun p hp => h.connecting p (List.mem_of_mem_eraseIdx hp)
  have hlength : ∀ id ok, ∀ id' ∈ s.broken,
      id' < (s.conns.modify id fun conn => { conn with connected := ok }).length := by
    intro id ok id' hid
    rw [List.length_modify]
    exact h.made id' hid
  have hold : ∀ addr id, s.connecting[k]? = some (addr, id) → ∀ addr' id', s.channels.lookup addr' = some id' →
      isConnected (s.conns.modify id fun conn => { conn with connected := result.ok }) id' = true → id' ∉ s.broken := by
    intro addr id hk addr' id' hlookup hcon
    rcases isConnected_modify hcon with rfl | hcon
    · exact h.connecting _ (List.mem_of_getElem? hk)
    · exact h.offered addr' id' (offers_iff.2 ⟨hlookup, hcon⟩)
  cases hc with
  | idle => exact h
  | timeout addr id hk =>
    refine ⟨?_, hrest, hlength id result.ok⟩
    intro addr' id' hoffers
    obtain ⟨hlookup, hcon⟩ := offers_iff.1 hoffers
    exact hold addr id hk addr' id' hlookup hcon
  | stores addr id hk =>
    refine ⟨?_, hrest, hlength id result.ok⟩
    intro addr' id' hoffers
    obtain ⟨hlookup, hcon⟩ := offers_iff.1 hoffers
    rw [Multimap.lookup_insert_ite] at hlookup
    split_ifs at hlookup with heq
    · obtain rfl : id = id' := Option.some.inj hlookup
      exact h.connecting _ (List.mem_of_getElem? hk)
    · exact hold addr id hk addr' id' hlookup hcon

theorem close_made (h : Sound s) (ids : Multiset ℕ) : ∀ id ∈ s.broken, id < (close ids s.conns).length := by
  intro id hid
  rw [close, List.length_mapIdx]
  exact h.made id hid

theorem updateInstances_sound (h : Sound s) (instances : List Bytes) : Sound (s.updateInstances instances) := by
  refine ⟨?_, h.connecting, close_made h _⟩
  intro addr id hoffers
  obtain ⟨hlookup, hcon⟩ := offers_iff.1 hoffers
  simp only [updateInstances, Multimap.lookup_keep] at hlookup
  split_ifs at hlookup
  exact h.offered addr id (offers_iff.2 ⟨hlookup, isConnected_close hcon⟩)

theorem disconnect_sound (h : Sound s) : Sound s.disconnect :=
  ⟨fun _ _ hoffers => absurd (offers_iff.1 hoffers).1 Multimap.lookup_empty_ne, h.connecting, close_made h _⟩

theorem callMethodAsync_sound (h : Sound s) {met : Met} (hs : Spared s (.callMethodAsync id met)) :
    Sound (s.callMethodAsync id met) := by
  unfold callMethodAsync
  split_ifs with hmet
  · obtain ⟨hgiven, hbreaks⟩ := hmet
    refine ⟨?_, ?_, ?_⟩
    · intro addr id' hoffers hbroken
      rcases List.mem_cons.1 hbroken with rfl | hbroken
      · exact hs id' met rfl hbreaks hgiven addr hoffers
      · exact h.offered addr id' hoffers hbroken
    · intro p hp hbroken
      rcases List.mem_cons.1 hbroken with heq | hbroken
      · exact hgiven.2 (heq ▸ List.mem_map_of_mem hp)
      · exact h.connecting p hp hbroken
    · intro id' hbroken
      rcases List.mem_cons.1 hbroken with rfl | hbroken
      · exact hgiven.1
      · exact h.made id' hbroken
  · exact h

theorem step_sound (h : Sound s) (hs : Spared s l) : Sound (s.step l) := by
  cases l with
  | getOrCreateChannel addr => exact lookup_sound h (getOrCreateChannel_lookup s addr)
  | connected k result => exact connected_sound h (connected_connected s k result)
  | updateInstances instances => exact updateInstances_sound h instances
  | disconnect => exact disconnect_sound h
  | callMethodAsync id met => exact callMethodAsync_sound h hs

theorem Sound.unbroken (h : Sound s) : Unbroken s := by
  intro l id hgives
  cases l with
  | getOrCreateChannel addr => exact h.offered addr id hgives
  | connected k result =>
    simp only [gives] at hgives
    split_ifs at hgives
    obtain ⟨p, hp, rfl⟩ := Option.map_eq_some_iff.1 hgives
    exact h.connecting p (List.mem_of_getElem? hp)
  | _ => cases hgives

/-- the next getOrCreateChannel finds it in the pool -/
theorem step_unspared (hs : ¬ Spared s l) : ¬ Unbroken (s.step l) := by
  simp only [Spared, not_forall, not_not] at hs
  obtain ⟨id, met, rfl, hbreaks, hgiven, addr, hoffers⟩ := hs
  have hstep : s.step (.callMethodAsync id met) = { s with broken := id :: s.broken } := if_pos ⟨hgiven, hbreaks⟩
  rw [hstep]
  intro h
  exact h (.getOrCreateChannel addr) id hoffers List.mem_cons_self

theorem start_sound : Sound start :=
  ⟨fun _ _ hoffers => absurd (offers_iff.1 hoffers).1 Multimap.lookup_empty_ne,
    fun _ hp => absurd hp List.not_mem_nil, fun _ hid => absurd hid List.not_mem_nil⟩

end

/-- **Broken connections are not reused**: in every run of calls getOrCreateChannel returns no broken channel, exactly if
no call breaks a channel that the pool offers. -/
theorem unbroken_iff (ls : List Label) :
    (∀ n, Unbroken (Machine.run step start (ls.take n))) ↔ Machine.Along step Spared start ls :=
  Machine.along_iff (L := fun _ => True) (I := Sound) (fun _ h => h.unbroken) (fun _ _ _ h hs => step_sound h hs)
    (fun _ _ _ _ hs => step_unspared hs) start_sound (fun _ _ => trivial)

/-- a channel whose peer has closed the stream -/
theorem reused :
    (Machine.run step start
        [.updateInstances [RpcDispatcher.ascii "a:1"], .getOrCreateChannel (RpcDispatcher.ascii "a:1"),
          .connected 0 ⟨true, none, false⟩, .callMethodAsync 0 { eof := true }]).gives
        (.getOrCreateChannel (RpcDispatcher.ascii "a:1")) = some 0 ∧
      (Machine.run step start
        [.updateInstances [RpcDispatcher.ascii "a:1"], .getOrCreateChannel (RpcDispatcher.ascii "a:1"),
          .connected 0 ⟨true, none, false⟩, .callMethodAsync 0 { eof := true }]).broken = [0] :=
  ⟨by decide, by decide⟩

end MCoroRpc.RpcClient.Shared
