/-
# `DHCPSpec` — when the DHCP client is bound

No read of a message is outside of it, whatever its bytes are (`acceptMessage_total`).  What a
message does to the client is in `accept_cases`: an offer, an acknowledgment and a refusal are
taken in every state.  So a client is bound as it should be in the runs in which no offer and
no foreign acknowledgment arrives once a request was sent, nor an acknowledgment before
(`client_safe`).
-/
import Unisym.Network.DHCP
import Unisym.Library.Steps
import Mathlib.Data.List.Induction

namespace Unisym.Network

open List

/-! ## Options -/

theorem dhcpFindOptionFrom_total (options : Bytes) (option : DHCPOption) :
    ∀ (fuel index : Nat), options.length < fuel + index → index ≤ options.length →
      ∃ r, dhcpFindOptionFrom options option fuel index = some r ∧
        ∀ view, r = some view → view.data + view.length ≤ options.length := by
  intro fuel
  induction fuel with
  | zero =>
    intro index h hle
    omega
  | succ fuel ih =>
    intro index h hle
    rw [dhcpFindOptionFrom]
    by_cases hin : index < options.length
    · obtain ⟨code, hcode⟩ := getElem?_of_lt hin
      rw [if_pos hin, hcode]
      simp only [Option.bind_eq_bind, Option.bind_some]
      by_cases hpad : code = DHCPOption.pad.toByte
      · rw [if_pos hpad]
        exact ih (index + 1) (by omega) hin
      rw [if_neg hpad]
      by_cases hlast : code = DHCPOption.last.toByte
      · rw [if_pos hlast]
        exact ⟨none, rfl, nofun⟩
      rw [if_neg hlast]
      by_cases hend : index + 1 ≥ options.length
      · rw [if_pos hend]
        exact ⟨none, rfl, nofun⟩
      rw [if_neg hend]
      obtain ⟨length, hlength⟩ := getElem?_of_lt (Nat.lt_of_not_ge hend)
      rw [hlength]
      simp only [Option.bind_some]
      by_cases hover : index + 2 + length.toNat > options.length
      · rw [if_pos hover]
        exact ⟨none, rfl, nofun⟩
      rw [if_neg hover]
      by_cases hfound : code = option.toByte
      · rw [if_pos hfound]
        refine ⟨_, rfl, ?_⟩
        rintro view ⟨⟩
        exact Nat.le_of_not_gt hover
      · rw [if_neg hfound]
        exact ih (index + 2 + length.toNat) (by omega) (Nat.le_of_not_gt hover)
    · rw [if_neg hin]
      exact ⟨none, rfl, nofun⟩

theorem dhcpFindOption_total (message : DHCPMessageView) (option : DHCPOption) :
    ∃ r, dhcpFindOption message option = some r ∧
      ∀ view, r = some view → view.data + view.length ≤ message.options.length :=
  dhcpFindOptionFrom_total message.options option _ 0 (Nat.lt_succ_self _) (Nat.zero_le _)

theorem dhcpReadMessageType_total (message : DHCPMessageView) :
    ∃ r, dhcpReadMessageType message = some r := by
  obtain ⟨r, hfind, hin⟩ := dhcpFindOption_total message .messageType
  unfold dhcpReadMessageType
  rw [hfind]
  cases r with
  | none => exact ⟨none, rfl⟩
  | some view =>
    simp only [some_bind]
    by_cases hlen : view.length ≠ 1
    · rw [if_pos hlen]
      exact ⟨none, rfl⟩
    · have hdata := hin view rfl
      obtain ⟨value, hvalue⟩ := getElem?_of_lt (show view.data < message.options.length by omega)
      rw [if_neg hlen, hvalue]
      exact ⟨_, rfl⟩

theorem dhcpReadIPv4Option_total (message : DHCPMessageView) (option : DHCPOption) :
    ∃ r, dhcpReadIPv4Option message option = some r := by
  obtain ⟨r, hfind, hin⟩ := dhcpFindOption_total message option
  unfold dhcpReadIPv4Option
  rw [hfind]
  cases r with
  | none => exact ⟨none, rfl⟩
  | some view =>
    simp only [some_bind]
    by_cases hlen : view.length < 4
    · rw [if_pos hlen]
      exact ⟨none, rfl⟩
    · have hdata := hin view rfl
      obtain ⟨address, haddress⟩ := ipv4CopyAddress_inside
        (show view.data + 4 ≤ message.options.length by omega)
      rw [if_neg hlen, haddress]
      exact ⟨_, rfl⟩

theorem mapM_total {β γ : Type} {f : β → Option γ} : ∀ {l : List β},
    (∀ i ∈ l, ∃ a, f i = some a) → ∃ as, l.mapM f = some as
  | [], _ => ⟨[], rfl⟩
  | i :: l, h => by
    obtain ⟨a, ha⟩ := h i mem_cons_self
    obtain ⟨as, has⟩ := mapM_total fun j hj => h j (mem_cons_of_mem i hj)
    refine ⟨a :: as, ?_⟩
    rw [mapM_cons, ha, has]
    rfl

theorem dhcpReadIPv4ListOption_total (message : DHCPMessageView) (option : DHCPOption)
    (capacity : Nat) : ∃ r, dhcpReadIPv4ListOption message option capacity = some r := by
  unfold dhcpReadIPv4ListOption
  by_cases hzero : capacity = 0
  · rw [if_pos hzero]
    exact ⟨[], rfl⟩
  obtain ⟨r, hfind, hin⟩ := dhcpFindOption_total message option
  rw [if_neg hzero, hfind]
  cases r with
  | none => exact ⟨[], rfl⟩
  | some view =>
    simp only [some_bind]
    by_cases hlen : view.length < 4
    · rw [if_pos hlen]
      exact ⟨[], rfl⟩
    · have hdata := hin view rfl
      rw [if_neg hlen]
      refine mapM_total fun i hi => ipv4CopyAddress_inside ?_
      have hi := mem_range.mp hi
      have hcount : i < view.length / 4 := by
        split at hi <;> omega
      omega

theorem dhcpReadU32Option_total (message : DHCPMessageView) (option : DHCPOption) :
    ∃ r, dhcpReadU32Option message option = some r := by
  obtain ⟨r, hfind, hin⟩ := dhcpFindOption_total message option
  unfold dhcpReadU32Option
  rw [hfind]
  cases r with
  | none => exact ⟨none, rfl⟩
  | some view =>
    simp only [some_bind]
    by_cases hlen : view.length ≠ 4
    · rw [if_pos hlen]
      exact ⟨none, rfl⟩
    · have hdata := hin view rfl
      obtain ⟨value, hvalue⟩ := read32_inside
        (show view.data + 4 ≤ message.options.length by omega)
      rw [if_neg hlen, hvalue]
      exact ⟨_, rfl⟩

/-! ## Messages -/

theorem parseDHCPMessage_total (payload : Option Bytes) :
    ∃ r, parseDHCPMessage payload = some r := by
  unfold parseDHCPMessage
  cases payload with
  | none => exact ⟨none, rfl⟩
  | some payload =>
    dsimp only
    by_cases hshort : payload.length < 240
    · rw [if_pos hshort]
      exact ⟨none, rfl⟩
    obtain ⟨cookie, hcookie⟩ := read32_inside (show 236 + 4 ≤ payload.length by omega)
    obtain ⟨xid, hxid⟩ := read32_inside (show 4 + 4 ≤ payload.length by omega)
    obtain ⟨ciaddr, hciaddr⟩ := ipv4CopyAddress_inside (show 12 + 4 ≤ payload.length by omega)
    obtain ⟨yiaddr, hyiaddr⟩ := ipv4CopyAddress_inside (show 16 + 4 ≤ payload.length by omega)
    obtain ⟨siaddr, hsiaddr⟩ := ipv4CopyAddress_inside (show 20 + 4 ≤ payload.length by omega)
    obtain ⟨giaddr, hgiaddr⟩ := ipv4CopyAddress_inside (show 24 + 4 ≤ payload.length by omega)
    rw [if_neg hshort]
    simp only [hcookie, hxid, hciaddr, hyiaddr, hsiaddr, hgiaddr, some_bind]
    split <;> exact ⟨_, rfl⟩

theorem dhcpReadClientConfig_total (message : DHCPMessageView) :
    ∃ r, dhcpReadClientConfig message = some r := by
  obtain ⟨type, htype⟩ := dhcpReadMessageType_total message
  obtain ⟨netmask, hnetmask⟩ := dhcpReadIPv4Option_total message .subnetMask
  obtain ⟨router, hrouter⟩ := dhcpReadIPv4Option_total message .router
  obtain ⟨server, hserver⟩ := dhcpReadIPv4Option_total message .serverIdentifier
  obtain ⟨servers, hservers⟩ := dhcpReadIPv4ListOption_total message .domainNameServer 4
  obtain ⟨leaseTime, hleaseTime⟩ := dhcpReadU32Option_total message .leaseTime
  unfold dhcpReadClientConfig
  cases type with
  | none => simp only [htype, some_bind]; exact ⟨_, rfl⟩
  | some type =>
    simp only [htype, hnetmask, hrouter, hserver, hservers, hleaseTime, some_bind]
    exact ⟨_, rfl⟩

namespace DHCPClientObject

/-- The client takes the payload for a message of its transaction, with this configuration. -/
def Hears (c : DHCPClientObject) (payload : Option Bytes) (xid : Nat) (config : DHCPClientConfig) :
    Prop :=
  ∃ message, parseDHCPMessage payload = some (some message) ∧ message.xid = xid ∧
    (c.xid = 0 ∨ xid = c.xid) ∧ dhcpReadClientConfig message = some (true, config)

/-- The client after a message. -/
def after (c : DHCPClientObject) (config : DHCPClientConfig) : DHCPClientObject :=
  match config.messageType with
  | .offer => { c with offer := config, state := .offered }
  | .ack => { c with bound := config, state := .bound }
  | .nak => { c with state := .nak }
  | _ => c

theorem accept_cases (c : DHCPClientObject) (payload : Option Bytes) :
    c.acceptMessage payload = some (none, c) ∨
      ∃ xid config, c.Hears payload xid config ∧
        c.acceptMessage payload = some (some config, c.after config) := by
  obtain ⟨r, hparse⟩ := parseDHCPMessage_total payload
  unfold acceptMessage
  rw [hparse]
  cases r with
  | none => exact Or.inl rfl
  | some message =>
    simp only [Option.bind_eq_bind, Option.bind_some]
    by_cases hxid : c.xid ≠ 0 ∧ message.xid ≠ c.xid
    · rw [if_pos hxid]
      exact Or.inl rfl
    obtain ⟨⟨ok, config⟩, hconfig⟩ := dhcpReadClientConfig_total message
    rw [if_neg hxid, hconfig]
    cases ok with
    | false => exact Or.inl rfl
    | true =>
      refine Or.inr ⟨message.xid, config, ⟨message, hparse, rfl, ?_, hconfig⟩, ?_⟩
      · by_cases hzero : c.xid = 0
        · exact Or.inl hzero
        · exact Or.inr (Decidable.not_not.mp fun hne => hxid ⟨hzero, hne⟩)
      · simp only [Option.bind_some, Bool.true_eq_false, if_false, after]
        cases config.messageType <;> rfl

theorem accept_of_hears {c : DHCPClientObject} {payload : Option Bytes} {xid : Nat}
    {config : DHCPClientConfig} (h : c.Hears payload xid config) :
    c.acceptMessage payload = some (some config, c.after config) := by
  obtain ⟨message, hparse, rfl, hxid, hconfig⟩ := h
  have hgate : ¬(c.xid ≠ 0 ∧ message.xid ≠ c.xid) := fun hand => hxid.elim hand.1 hand.2
  unfold acceptMessage
  simp only [hparse, hconfig, some_bind, Bool.true_eq_false, if_false, after]
  rw [if_neg hgate]
  cases config.messageType <;> rfl

theorem acceptMessage_total (c : DHCPClientObject) (payload : Option Bytes) :
    ∃ r, c.acceptMessage payload = some r := by
  rcases c.accept_cases payload with h | ⟨xid, config, -, h⟩ <;> exact ⟨_, h⟩

theorem buildRequest_cases (c : DHCPClientObject) (capacity : Option Nat) (mac : MacAddress) :
    c.buildRequest capacity mac = (none, c) ∨
      ∃ message, buildDHCPRequest capacity mac c.xid c.offer.address c.offer.server = some message ∧
        c.buildRequest capacity mac = (some message, { c with state := .requesting }) := by
  unfold buildRequest
  split
  · exact Or.inl rfl
  · cases hbuild : buildDHCPRequest capacity mac c.xid c.offer.address c.offer.server with
    | none => exact Or.inl rfl
    | some message => exact Or.inr ⟨message, rfl, rfl⟩

theorem step_total (c : DHCPClientObject) (call : Call) : ∃ r, c.step call = some r := by
  cases call with
  | start xid => exact ⟨_, rfl⟩
  | buildRequest capacity mac => exact ⟨_, rfl⟩
  | acceptMessage payload =>
    obtain ⟨⟨config, c'⟩, h⟩ := c.acceptMessage_total payload
    exact ⟨_, by simp only [step, h, some_bind]; rfl⟩

theorem run_total : ∀ (calls : List Call) (c : DHCPClientObject), ∃ r, c.run calls = some r
  | [], c => ⟨_, rfl⟩
  | call :: calls, c => by
    obtain ⟨⟨result, c'⟩, hstep⟩ := c.step_total call
    obtain ⟨⟨log, last⟩, hrun⟩ := run_total calls c'
    exact ⟨_, by simp only [run, hstep, hrun, some_bind]; rfl⟩

/-! ## Records -/

theorem run_calls : ∀ {calls : List Call} {c : DHCPClientObject} {log : List Entry}
    {last : DHCPClientObject}, c.run calls = some (log, last) → log.map Entry.call = calls
  | [], _, _, _, h => by
    cases h
    rfl
  | call :: calls, c, log, last, h => by
    obtain ⟨⟨result, c'⟩, hstep⟩ := c.step_total call
    obtain ⟨⟨rest, last'⟩, hrest⟩ := run_total calls c'
    simp only [run, hstep, hrest, some_bind, Option.some.injEq,
      Prod.mk.injEq] at h
    obtain ⟨rfl, rfl⟩ := h
    rw [map_cons, run_calls hrest]

namespace Entry

/-- A new transaction begins. -/
def Starts (e : Entry) : Prop := ∃ xid, e.call = .start xid

/-- A request for this address at this server is built. -/
def Requests (e : Entry) (xid : Nat) (address server : IPv4Address) : Prop :=
  ∃ capacity mac message, e.call = .buildRequest capacity mac ∧
    e.result = .request (some message) ∧
    buildDHCPRequest capacity mac xid address server = some message

/-- A message with this configuration is accepted. -/
def Accepts (e : Entry) (xid : Nat) (config : DHCPClientConfig) : Prop :=
  ∃ payload, e.call = .acceptMessage payload ∧ e.result = .accepted (some config) ∧
    e.before.Hears payload xid config

end Entry

/-- In this transaction a request was sent, and then an acknowledgment of the same transaction
id that names its address and its server was accepted. -/
def Confirmed (log : List Entry) : Prop :=
  ∃ old request between ack late xid config,
    log = old ++ request :: (between ++ ack :: late) ∧
      request.Requests xid config.address config.server ∧ ack.Accepts xid config ∧
      config.messageType = .ack ∧ ∀ e ∈ request :: (between ++ ack :: late), ¬e.Starts

/-- In this transaction a request was sent that was not refused. -/
def Requested (log : List Entry) : Prop :=
  ∃ old request late xid address server, log = old ++ request :: late ∧
    request.Requests xid address server ∧
    ∀ e ∈ late, ¬e.Starts ∧ ∀ xid config, e.Accepts xid config → config.messageType ≠ .nak

/-- What a call must meet: once a request was sent, no offer arrives, and an acknowledgment
arrives only then, with the transaction id of the client and with the address and the server of
the offer. -/
def Ok (c : DHCPClientObject) : Call → Prop
  | .acceptMessage payload => ∀ xid config, c.Hears payload xid config →
      (config.messageType = .offer → c.state ≠ .requesting ∧ c.state ≠ .bound) ∧
      (config.messageType = .ack → (c.state = .requesting ∨ c.state = .bound) ∧ xid = c.xid ∧
        config.address = c.offer.address ∧ config.server = c.offer.server)
  | _ => True

/-- All calls meet it, each at the client it finds. -/
def AllOk (c : DHCPClientObject) : List Call → Prop
  | [] => True
  | call :: calls => c.Ok call ∧ ∀ result c', c.step call = some (result, c') → c'.AllOk calls

/-- What the record says of the client. -/
structure Follows (log : List Entry) (c : DHCPClientObject) : Prop where
  sent : c.state = .requesting ∨ c.state = .bound → ∃ old request late,
    log = old ++ request :: late ∧ request.Requests c.xid c.offer.address c.offer.server ∧
      ∀ e ∈ request :: late, ¬e.Starts
  bound : c.state = .bound → Confirmed log
  requested : Requested log → c.state = .requesting ∨ c.state = .bound

theorem follows_new : Follows [] new := by
  refine ⟨fun h => ?_, nofun, ?_⟩
  · rcases h with h | h <;> cases h
  · rintro ⟨old, request, late, -, -, -, hlog, -⟩
    cases old <;> cases hlog

variable {log : List Entry} {c c' : DHCPClientObject} {e : Entry}

theorem Confirmed.append (h : Confirmed log) (he : ¬e.Starts) : Confirmed (log ++ [e]) := by
  obtain ⟨old, request, between, ack, late, xid, config, rfl, hrequest, hack, htype, hstarts⟩ := h
  refine ⟨old, request, between, ack, late ++ [e], xid, config, ?_, hrequest, hack, htype, ?_⟩
  · rw [append_assoc, cons_append, append_assoc, cons_append]
  · intro f hf
    have hsplit : request :: (between ++ ack :: (late ++ [e])) =
        request :: (between ++ ack :: late) ++ [e] := by
      rw [cons_append, append_assoc, cons_append]
    rw [hsplit] at hf
    rcases mem_append.mp hf with hf | hf
    · exact hstarts f hf
    · rw [mem_singleton.mp hf]
      exact he

/-- A request that still stands, seen before the last call. -/
theorem Requested.of_append (h : Requested (log ++ [e])) :
    (∃ xid address server, e.Requests xid address server) ∨
      Requested log ∧ ¬e.Starts ∧ ∀ xid config, e.Accepts xid config → config.messageType ≠ .nak := by
  obtain ⟨old, request, late, xid, address, server, hlog, hrequest, hlate⟩ := h
  cases late using List.reverseRecOn with
  | nil =>
    obtain ⟨-, he⟩ := append_inj' hlog rfl
    cases he
    exact Or.inl ⟨xid, address, server, hrequest⟩
  | append_singleton late f =>
    rw [← cons_append, ← append_assoc] at hlog
    obtain ⟨hold, he⟩ := append_inj' hlog rfl
    cases he
    refine Or.inr ⟨⟨old, request, late, xid, address, server, hold, hrequest, fun g hg => ?_⟩, ?_⟩
    · exact hlate g (mem_append_left _ hg)
    · exact hlate e mem_append_cons_self

/-- A call that leaves the state and the offer, and is none of those that count. -/
theorem Follows.same (h : Follows log c) (hstate : c'.state = c.state) (hxid : c'.xid = c.xid)
    (hoffer : c'.offer = c.offer) (hstarts : ¬e.Starts)
    (hrequests : ∀ xid address server, ¬e.Requests xid address server) : Follows (log ++ [e]) c' := by
  refine ⟨fun hsent => ?_, fun hbound => ?_, fun hrequested => ?_⟩
  · rw [hstate] at hsent
    obtain ⟨old, request, late, rfl, hrequest, hlate⟩ := h.sent hsent
    refine ⟨old, request, late ++ [e], ?_, ?_, fun f hf => ?_⟩
    · rw [append_assoc, cons_append]
    · rw [hxid, hoffer]
      exact hrequest
    · rw [← cons_append] at hf
      rcases mem_append.mp hf with hf | hf
      · exact hlate f hf
      · rw [mem_singleton.mp hf]
        exact hstarts
  · exact (h.bound (hstate ▸ hbound)).append hstarts
  · rw [hstate]
    rcases hrequested.of_append with ⟨xid, address, server, hrequest⟩ | ⟨hlog, -⟩
    · exact absurd hrequest (hrequests xid address server)
    · exact h.requested hlog

theorem Follows.idle (hstate : c'.state ≠ .requesting ∧ c'.state ≠ .bound)
    (hrequested : ¬Requested (log ++ [e])) : Follows (log ++ [e]) c' :=
  ⟨fun h => (h.elim hstate.1 hstate.2).elim, fun h => absurd h hstate.2, fun h => absurd h hrequested⟩

/-- While a request stands, a message that does not refuse it keeps the offer and the binding. -/
def Keeps (log : List Entry) (e : Entry) : Prop :=
  Requested log → (∃ payload, e.call = .acceptMessage payload) →
    (∀ xid config, e.Accepts xid config → config.messageType ≠ .nak) →
    e.after.offer = e.before.offer ∧ (e.before.isBound = true → e.after.isBound = true)

theorem Follows.heard (h : Follows log c) {payload : Option Bytes} {xid : Nat}
    {config : DHCPClientConfig} (hok : c.Ok (.acceptMessage payload))
    (hhears : c.Hears payload xid config) (he : e = ⟨c, .acceptMessage payload,
      .accepted (some config), c.after config⟩) :
    Follows (log ++ [e]) (c.after config) ∧ Keeps log e := by
  have hstarts : ¬e.Starts := by
    rintro ⟨xid, hcall⟩
    rw [he] at hcall
    cases hcall
  have hrequests : ∀ xid address server, ¬e.Requests xid address server := by
    rintro xid address server ⟨capacity, mac, message, hcall, -⟩
    rw [he] at hcall
    cases hcall
  have haccepts : e.Accepts xid config := ⟨payload, by rw [he], by rw [he], by rw [he]; exact hhears⟩
  have hlast : Requested (log ++ [e]) → Requested log ∧ config.messageType ≠ .nak := by
    intro hrequested
    rcases hrequested.of_append with ⟨xid, address, server, hrequest⟩ | ⟨hlog, -, hnak⟩
    · exact absurd hrequest (hrequests xid address server)
    · exact ⟨hlog, hnak xid config haccepts⟩
  obtain ⟨hoffer, hack⟩ := hok xid config hhears
  have hbefore : e.before = c := by rw [he]
  have hafter : e.after = c.after config := by rw [he]
  cases htype : config.messageType with
  | offer =>
    have hstate := hoffer htype
    have hidle : Requested log → False := fun hlog => (h.requested hlog).elim hstate.1 hstate.2
    have hc : c.after config = { c with offer := config, state := .offered } := by
      simp only [after, htype]
    rw [hc]
    exact ⟨Follows.idle ⟨nofun, nofun⟩ fun hrequested => hidle (hlast hrequested).1,
      fun hlog => (hidle hlog).elim⟩
  | ack =>
    obtain ⟨hstate, rfl, haddress, hserver⟩ := hack htype
    have hc : c.after config = { c with bound := config, state := .bound } := by
      simp only [after, htype]
    rw [hc] at hafter ⊢
    obtain ⟨old, request, late, hlog, hrequest, hlate⟩ := h.sent hstate
    have hnew : ∀ f ∈ request :: (late ++ [e]), ¬f.Starts := by
      intro f hf
      rw [← cons_append] at hf
      rcases mem_append.mp hf with hf | hf
      · exact hlate f hf
      · rw [mem_singleton.mp hf]
        exact hstarts
    have hsplit : log ++ [e] = old ++ request :: (late ++ [e]) := by
      rw [hlog, append_assoc, cons_append]
    refine ⟨⟨fun _ => ⟨old, request, late ++ [e], hsplit, hrequest, hnew⟩, fun _ => ?_,
      fun _ => Or.inr rfl⟩, fun _ _ _ => ?_⟩
    · refine ⟨old, request, late, e, [], c.xid, config, hsplit, ?_, haccepts, htype, hnew⟩
      rw [haddress, hserver]
      exact hrequest
    · rw [hbefore, hafter]
      exact ⟨rfl, fun _ => rfl⟩
  | nak =>
    have hc : c.after config = { c with state := .nak } := by simp only [after, htype]
    rw [hc]
    exact ⟨Follows.idle ⟨nofun, nofun⟩ fun hrequested => (hlast hrequested).2 htype,
      fun _ _ hnak => absurd htype (hnak xid config haccepts)⟩
  | _ =>
    have hc : c.after config = c := by simp only [after, htype]
    rw [hc] at hafter ⊢
    refine ⟨h.same rfl rfl rfl hstarts hrequests, fun _ _ _ => ?_⟩
    rw [hbefore, hafter]
    exact ⟨rfl, fun hbound => hbound⟩

theorem Follows.step (h : Follows log c) {call : Call} {result : Result} (hok : c.Ok call)
    (hstep : c.step call = some (result, c')) :
    Follows (log ++ [⟨c, call, result, c'⟩]) c' ∧ Keeps log ⟨c, call, result, c'⟩ := by
  cases call with
  | start xid =>
    cases hstep
    refine ⟨Follows.idle ⟨nofun, nofun⟩ fun hrequested => ?_, ?_⟩
    · rcases hrequested.of_append with ⟨_, _, _, _, _, _, hcall, -⟩ | ⟨-, hstarts, -⟩
      · cases hcall
      · exact hstarts ⟨xid, rfl⟩
    · rintro - ⟨payload, hcall⟩
      cases hcall
  | buildRequest capacity mac =>
    have hstarts : ∀ r a, ¬Entry.Starts ⟨c, .buildRequest capacity mac, r, a⟩ := by
      rintro r a ⟨xid, hcall⟩
      cases hcall
    have hkeeps : ∀ r a, Keeps log ⟨c, .buildRequest capacity mac, r, a⟩ := by
      rintro r a - ⟨payload, hcall⟩
      cases hcall
    simp only [DHCPClientObject.step, Option.some.injEq, Prod.mk.injEq] at hstep
    obtain ⟨rfl, rfl⟩ := hstep
    refine ⟨?_, hkeeps _ _⟩
    rcases c.buildRequest_cases capacity mac with hnone | ⟨message, hbuild, hsome⟩
    · rw [hnone]
      refine h.same rfl rfl rfl (hstarts _ _) ?_
      rintro xid address server ⟨_, _, _, -, hresult, -⟩
      cases hresult
    · rw [hsome]
      have hrequest : Entry.Requests ⟨c, .buildRequest capacity mac, .request (some message),
          { c with state := .requesting }⟩ c.xid c.offer.address c.offer.server :=
        ⟨capacity, mac, message, rfl, rfl, hbuild⟩
      refine ⟨fun _ => ⟨log, _, [], rfl, hrequest, fun f hf => ?_⟩, nofun, fun _ => Or.inl rfl⟩
      rw [mem_singleton.mp hf]
      exact hstarts _ _
  | acceptMessage payload =>
    rcases c.accept_cases payload with hnone | ⟨xid, config, hhears, hsome⟩
    · simp only [DHCPClientObject.step, hnone, some_bind,
        Option.some.injEq, Prod.mk.injEq] at hstep
      obtain ⟨rfl, rfl⟩ := hstep
      refine ⟨h.same rfl rfl rfl ?_ ?_, fun _ _ _ => ⟨rfl, fun hbound => hbound⟩⟩
      · rintro ⟨xid, hcall⟩
        cases hcall
      · rintro xid address server ⟨_, _, _, hcall, -⟩
        cases hcall
    · simp only [DHCPClientObject.step, hsome, some_bind,
        Option.some.injEq, Prod.mk.injEq] at hstep
      obtain ⟨rfl, rfl⟩ := hstep
      exact h.heard hok hhears rfl

theorem Follows.run : ∀ {calls : List Call} {c : DHCPClientObject} {log : List Entry},
    Follows log c → c.AllOk calls → ∀ {log' : List Entry} {last : DHCPClientObject},
      c.run calls = some (log', last) →
        Follows (log ++ log') last ∧
          ∀ before e late, log' = before ++ e :: late → Keeps (log ++ before) e
  | [], c, log, h, _, log', last, hrun => by
    cases hrun
    rw [append_nil]
    refine ⟨h, fun before e late hlog => ?_⟩
    cases before <;> cases hlog
  | call :: calls, c, log, h, hok, log', last, hrun => by
    obtain ⟨⟨result, c'⟩, hstep⟩ := c.step_total call
    obtain ⟨⟨rest, last'⟩, hrest⟩ := run_total calls c'
    simp only [DHCPClientObject.run, hstep, hrest, some_bind,
      Option.some.injEq, Prod.mk.injEq] at hrun
    obtain ⟨rfl, rfl⟩ := hrun
    obtain ⟨hfollows, hkeeps⟩ := h.step hok.1 hstep
    obtain ⟨hlast, hall⟩ := Follows.run hfollows (hok.2 result c' hstep) hrest
    refine ⟨by rw [append_assoc] at hlast; exact hlast, fun before e late hlog => ?_⟩
    cases before with
    | nil =>
      cases hlog
      rw [append_nil]
      exact hkeeps
    | cons f before =>
      rw [cons_append, List.cons.injEq] at hlog
      obtain ⟨rfl, hlog⟩ := hlog
      have hkeep := hall before e late hlog
      rw [append_assoc] at hkeep
      exact hkeep

/-- Every run has a result, as no message is read outside of it.  In a run that meets the
conditions the client is bound only when the address and the server of a request were confirmed
in this transaction, and no message but a refusal takes the offer or the binding away while a
request stands. -/
theorem client_safe (calls : List Call) :
    ∃ log last, new.run calls = some (log, last) ∧
      (new.AllOk calls → (last.isBound = true → Confirmed log) ∧
        ∀ before e late, log = before ++ e :: late → Keeps before e) := by
  obtain ⟨⟨log, last⟩, hrun⟩ := run_total calls new
  refine ⟨log, last, hrun, fun hok => ?_⟩
  obtain ⟨hfollows, hkeeps⟩ := Follows.run follows_new hok hrun
  exact ⟨fun hbound => hfollows.bound (of_decide_eq_true hbound), hkeeps⟩

/-! ## A lease -/

/-- A reply of a server. -/
def reply (type : UInt8) (xid : Nat) (address server : IPv4Address) : Bytes :=
  [2, 1, 6, 0] ++ write32 xid ++ List.replicate 8 0 ++ address.octets ++ List.replicate 216 0 ++
    write32 dhcpMagicCookie ++ [53, 1, type, 54, 4] ++ server.octets ++ [255]

/-- The reply as it is read. -/
def replyView (type : UInt8) (xid : Nat) (address server : IPv4Address) : DHCPMessageView :=
  ⟨[53, 1, type, 54, 4] ++ server.octets ++ [255], xid, .zero, address, .zero, .zero⟩

def replyConfig (type : DHCPMessageType) (address server : IPv4Address) : DHCPClientConfig :=
  { DHCPClientConfig.zero with
    address := address, hasAddress := true, messageType := type, server := server, hasServer := true }

/-- An offer, a request and an acknowledgment. -/
def lease : List Call :=
  [.start 7, .acceptMessage (some (reply 2 7 ⟨10, 0, 0, 9⟩ ⟨10, 0, 0, 1⟩)),
    .buildRequest (some 300) ⟨2, 0, 0, 0, 0, 1⟩,
    .acceptMessage (some (reply 5 7 ⟨10, 0, 0, 9⟩ ⟨10, 0, 0, 1⟩))]

theorem hears_reply (c : DHCPClientObject) (hxid : c.xid = 7) {type : UInt8}
    {messageType : DHCPMessageType} (htype : type = 2 ∧ messageType = .offer ∨
      type = 5 ∧ messageType = .ack) {xid : Nat} {config : DHCPClientConfig} :
    c.Hears (some (reply type 7 ⟨10, 0, 0, 9⟩ ⟨10, 0, 0, 1⟩)) xid config ↔
      xid = 7 ∧ config = replyConfig messageType ⟨10, 0, 0, 9⟩ ⟨10, 0, 0, 1⟩ := by
  have hparse : parseDHCPMessage (some (reply type 7 ⟨10, 0, 0, 9⟩ ⟨10, 0, 0, 1⟩)) =
      some (some (replyView type 7 ⟨10, 0, 0, 9⟩ ⟨10, 0, 0, 1⟩)) := by
    rcases htype with ⟨rfl, -⟩ | ⟨rfl, -⟩ <;> decide +kernel
  have hread : dhcpReadClientConfig (replyView type 7 ⟨10, 0, 0, 9⟩ ⟨10, 0, 0, 1⟩) =
      some (true, replyConfig messageType ⟨10, 0, 0, 9⟩ ⟨10, 0, 0, 1⟩) := by
    rcases htype with ⟨rfl, rfl⟩ | ⟨rfl, rfl⟩ <;> decide
  constructor
  · rintro ⟨message, hmessage, rfl, -, hconfig⟩
    rw [hparse] at hmessage
    cases hmessage
    rw [hread] at hconfig
    cases hconfig
    exact ⟨rfl, rfl⟩
  · rintro ⟨rfl, rfl⟩
    exact ⟨_, hparse, rfl, Or.inr hxid.symm, hread⟩

theorem client_safe_lease :
    ∃ log last, new.run lease = some (log, last) ∧ last.isBound = true ∧ Confirmed log := by
  have hok : new.AllOk lease := by
    refine ⟨trivial, fun _ c₁ h₁ => ⟨fun xid config hhears => ?_, fun _ c₂ h₂ => ⟨trivial,
      fun _ c₃ h₃ => ⟨fun xid config hhears => ?_, fun _ _ _ => trivial⟩⟩⟩⟩
    · cases h₁
      obtain ⟨rfl, rfl⟩ := (hears_reply (start 7) rfl (Or.inl ⟨rfl, rfl⟩)).mp hhears
      exact ⟨fun _ => ⟨nofun, nofun⟩, nofun⟩
    · cases h₁
      have hstep := accept_of_hears ((hears_reply (start 7) rfl (Or.inl ⟨rfl, rfl⟩)).mpr ⟨rfl, rfl⟩)
      simp only [step, hstep, some_bind, Option.some.injEq,
        Prod.mk.injEq] at h₂
      obtain ⟨-, rfl⟩ := h₂
      cases h₃
      obtain ⟨rfl, rfl⟩ := (hears_reply _ rfl (Or.inr ⟨rfl, rfl⟩)).mp hhears
      exact ⟨nofun, fun _ => ⟨Or.inl rfl, rfl, rfl, rfl⟩⟩
  obtain ⟨log, last, hrun, hsafe⟩ := client_safe lease
  have hbound : (new.run lease).map (fun r => r.2.isBound) = some true := by decide +kernel
  rw [hrun] at hbound
  have hlast : last.isBound = true := Option.some.inj hbound
  exact ⟨log, last, hrun, hlast, (hsafe hok).1 hlast⟩

/-- An acknowledgment binds a client that has sent no request.  And an offer of another server
takes a binding away. -/
theorem unasked_ack_binds :
    (∃ log last, new.run [.start 7, .acceptMessage (some (reply 5 7 ⟨10, 0, 0, 9⟩ ⟨10, 0, 0, 1⟩))] =
      some (log, last) ∧ last.isBound = true ∧ ¬Confirmed log) ∧
    (new.run lease).map (fun r => (r.2.isBound, r.2.offer.address)) =
      some (true, ⟨10, 0, 0, 9⟩) ∧
    (new.run (lease ++ [.acceptMessage (some (reply 2 7 ⟨10, 0, 0, 8⟩ ⟨10, 0, 0, 2⟩))])).map
      (fun r => (r.2.isBound, r.2.offer.address)) = some (false, ⟨10, 0, 0, 8⟩) := by
  refine ⟨?_, by decide +kernel, by decide +kernel⟩
  obtain ⟨⟨log, last⟩, hrun⟩ := run_total
    [.start 7, .acceptMessage (some (reply 5 7 ⟨10, 0, 0, 9⟩ ⟨10, 0, 0, 1⟩))] new
  have hbound : (new.run [.start 7,
      .acceptMessage (some (reply 5 7 ⟨10, 0, 0, 9⟩ ⟨10, 0, 0, 1⟩))]).map (fun r => r.2.isBound) =
        some true := by decide +kernel
  rw [hrun] at hbound
  refine ⟨log, last, hrun, Option.some.inj hbound, ?_⟩
  rintro ⟨old, request, between, ack, late, xid, config, hlog, ⟨_, _, _, hcall, -⟩, -⟩
  have hmem : request ∈ log := by
    rw [hlog]
    exact mem_append_right old mem_cons_self
  have hcalls := mem_map_of_mem (f := Entry.call) hmem
  rw [run_calls hrun, hcall] at hcalls
  rcases mem_cons.mp hcalls with heq | hcalls
  · cases heq
  · cases mem_singleton.mp hcalls

end DHCPClientObject

end Unisym.Network
