import PersonalJournal.Dns.DualStack

namespace PersonalJournal.Nat64Prefix
open Nat64 DualStack Allocation

-- The static net_family of this file, which the two tests still call by its former name
-- dananet_family, is the one of Process. There is no flag ipv4 here, and it is left alone.

-- One result of getaddrinfo, by its ai_family.
inductive AddrInfo where
  | inet6 (a : In6Addr)
  | inet (a : InAddr)
  | other

-- getaddrinfo with the hints of this file (`none` is an error), and the text of addresses.
structure Platform where
  getaddrinfo : List UInt8 → Option (List AddrInfo)
  inet_pton : List UInt8 → Option InAddr
  inet_ntop : In6Addr → List UInt8

def asciiText (name : String) : List UInt8 := name.toList.map (fun c => UInt8.ofNat c.toNat)

def tv6 : List UInt8 := asciiText "tv6.ustc.edu.cn"

def ipv4onlyArpa : List UInt8 := asciiText "ipv4only.arpa"

-- The switch of dnsquery.c, but is_valid is returned here. is_iOS_above_9_2 is false.
def isNat64AddrValid (addr : In6Addr) : Bool := isValid addr

-- The loop goes on where the check is passed.
def convertLoop (v4 : InAddr) : List AddrInfo → Bool → In6Addr → Bool × In6Addr
  | [],ret,v6 => (ret,v6)
  | .inet6 a :: rest,_,v6 =>
      if isNat64AddrValid a = false then (true,replaceNat64WithV4IP a v4) else convertLoop v4 rest false v6
  | .inet _ :: rest,_,v6 => convertLoop v4 rest false v6
  | .other :: rest,_,v6 => convertLoop v4 rest false v6

def convertV4toNat64V6 (platform : Platform) (numbers : Allocator Use) (fuel : Nat) (probes : Probes) (s : Process)
    (v4 : InAddr) (v6 : In6Addr) : Option ((Bool × In6Addr) × Process) := do
  let s ← checknetfamily numbers fuel probes s
  if s.net_family ≠ .ipv6 ∧ s.net_family ≠ .dual then some ((false,v6),s)
  else match platform.getaddrinfo tv6 with
    | none => some ((false,v6),s)
    | some res0 => some (convertLoop v4 res0 false v6,s)

theorem blank_length : (List.replicate 16 (0 : UInt8)).length = 16 := rfl

-- struct in6_addr, cleared.
def blankV6 : In6Addr := ⟨List.replicate 16 0,blank_length⟩

def convertText (platform : Platform) (numbers : Allocator Use) (fuel : Nat) (probes : Probes) (s : Process)
    (v4_ip nat64_v6_ip : List UInt8) : Option ((Bool × List UInt8) × Process) :=
  match platform.inet_pton v4_ip with
  | none => some ((false,nat64_v6_ip),s)
  | some v4 => do
      let ((ret,v6),s) ← convertV4toNat64V6 platform numbers fuel probes s v4 blankV6
      some ((ret,if ret then platform.inet_ntop v6 else nat64_v6_ip),s)

theorem front_inside (a : In6Addr) : 0+(a.s6_addr.take 12).length ≤ 16 := by
  rw [List.length_take]
  omega

-- memcpy of 12 octets: s6_addr32[0] to [2].
def copyPrefix (nat64In6 a : In6Addr) : In6Addr := memcpy nat64In6 0 (a.s6_addr.take 12) (front_inside a)

def prefixLoop : List AddrInfo → Bool → In6Addr → Bool × In6Addr
  | [],ret,nat64In6 => (ret,nat64In6)
  | .inet6 a :: _,_,nat64In6 => (true,copyPrefix nat64In6 a)
  | .inet _ :: rest,_,nat64In6 => prefixLoop rest false nat64In6
  | .other :: rest,_,nat64In6 => prefixLoop rest false nat64In6

def getNetworkNat64Prefix (platform : Platform) (numbers : Allocator Use) (fuel : Nat) (probes : Probes) (s : Process)
    (nat64In6 : In6Addr) : Option ((Bool × In6Addr) × Process) := do
  let s ← checknetfamily numbers fuel probes s
  if s.net_family ≠ .ipv6 then some ((false,nat64In6),s)
  else match platform.getaddrinfo ipv4onlyArpa with
    | none => some ((false,nat64In6),s)
    | some res0 => some (prefixLoop res0 false nat64In6,s)

def getNetworkNat64PrefixText (platform : Platform) (numbers : Allocator Use) (fuel : Nat) (probes : Probes) (s : Process)
    (nat64Text : List UInt8) : Option ((Bool × List UInt8) × Process) := do
  let ((ret,nat64In6),s) ← getNetworkNat64Prefix platform numbers fuel probes s blankV6
  some ((ret,if ret then platform.inet_ntop nat64In6 else nat64Text),s)

-- The address that ConvertV4toNat64V6 takes: the first that does not hold a well-known one.
def AddrInfo.service : AddrInfo → Option In6Addr
  | .inet6 a => if isValid a then none else some a
  | .inet _ => none
  | .other => none

def AddrInfo.inet6? : AddrInfo → Option In6Addr
  | .inet6 a => some a
  | .inet _ => none
  | .other => none

def served (platform : Platform) : Option In6Addr := (platform.getaddrinfo tv6).bind (·.findSome? AddrInfo.service)

def announced (platform : Platform) : Option In6Addr := (platform.getaddrinfo ipv4onlyArpa).bind (·.findSome? AddrInfo.inet6?)

variable {platform : Platform} {probes : Probes} {s : Process} {v4 : InAddr} {v6 : In6Addr}

theorem convertLoop_exact (v4 : InAddr) (results : List AddrInfo) (v6 : In6Addr) :
    convertLoop v4 results false v6 = match results.findSome? AddrInfo.service with
      | none => (false,v6)
      | some a => (true,replaceNat64WithV4IP a v4) := by
  induction results with
  | nil => rfl
  | cons first rest ih =>
      cases first with
      | inet6 a =>
          rw [convertLoop,List.findSome?_cons,AddrInfo.service,isNat64AddrValid]
          cases isValid a with
          | true => exact ih
          | false => rfl
      | inet => exact ih
      | other => exact ih

theorem prefixLoop_exact (results : List AddrInfo) (nat64In6 : In6Addr) :
    prefixLoop results false nat64In6 = match results.findSome? AddrInfo.inet6? with
      | none => (false,nat64In6)
      | some a => (true,copyPrefix nat64In6 a) := by
  induction results with
  | nil => rfl
  | cons first rest ih =>
      cases first with
      | inet6 a => rfl
      | inet => exact ih
      | other => exact ih

def converted (platform : Platform) (have6 : Bool) (v4 : InAddr) (v6 : In6Addr) : Bool × In6Addr :=
  match if have6 then served platform else none with
  | none => (false,v6)
  | some a => (true,replaceNat64WithV4IP a v4)

theorem convert_settles (numbers : Allocator Use) (answers4 : Answers probes.ipv4 have4)
    (answers6 : Answers probes.ipv6 have6)
    (platform : Platform) (s : Process) (v4 : InAddr) (v6 : In6Addr) :
    Loop.Settles (fun fuel => convertV4toNat64V6 platform numbers fuel probes s v4 v6)
      (converted platform have6 v4 v6,family numbers have4 have6 probes s) := by
  unfold convertV4toNat64V6
  refine (checknetfamily_settles numbers answers4 answers6 s).bind ?_
  unfold family
  have stack : (stackOf have4 have6 ≠ .ipv6 ∧ stackOf have4 have6 ≠ .dual) ↔ have6 = false := by
    cases have4 <;> cases have6 <;> decide
  cases have6 with
  | false =>
      simp only [if_pos (stack.mpr rfl)]
      exact .done _
  | true =>
      have stays : ¬ (stackOf have4 true ≠ .ipv6 ∧ stackOf have4 true ≠ .dual) := fun off => by cases stack.mp off
      simp only [if_neg stays,converted,served,if_true]
      cases platform.getaddrinfo tv6 with
      | none => exact .done _
      | some results =>
          simp only [convertLoop_exact,Option.bind_some]
          exact .done _

def fetched (platform : Platform) (only6 : Bool) (nat64In6 : In6Addr) : Bool × In6Addr :=
  match if only6 then announced platform else none with
  | none => (false,nat64In6)
  | some a => (true,copyPrefix nat64In6 a)

theorem prefix_settles (numbers : Allocator Use) (answers4 : Answers probes.ipv4 have4)
    (answers6 : Answers probes.ipv6 have6)
    (platform : Platform) (s : Process) (nat64In6 : In6Addr) :
    Loop.Settles (fun fuel => getNetworkNat64Prefix platform numbers fuel probes s nat64In6)
      (fetched platform (!have4 && have6) nat64In6,family numbers have4 have6 probes s) := by
  unfold getNetworkNat64Prefix
  refine (checknetfamily_settles numbers answers4 answers6 s).bind ?_
  unfold family
  have stack : stackOf have4 have6 = .ipv6 ↔ (!have4 && have6) = true := by cases have4 <;> cases have6 <;> decide
  by_cases only6 : (!have4 && have6) = true
  · have stays : ¬ stackOf have4 have6 ≠ .ipv6 := fun off => off (stack.mpr only6)
    simp only [if_neg stays,fetched,announced,if_pos only6]
    cases platform.getaddrinfo ipv4onlyArpa with
    | none => exact .done _
    | some results =>
        simp only [prefixLoop_exact,Option.bind_some]
        exact .done _
  · have off : stackOf have4 have6 ≠ .ipv6 := fun same => only6 (stack.mp same)
    simp only [if_pos off,fetched,if_neg only6]
    exact .done _

theorem converted_returns (platform : Platform) (have6 : Bool) (v4 : InAddr) (v6 : In6Addr) :
    (converted platform have6 v4 v6).1 = true ↔ have6 = true ∧ ∃ a, served platform = some a := by
  unfold converted
  cases have6 with
  | false => simp
  | true => cases served platform <;> simp

theorem converted_embeds (p : Prefix pl) (found : served platform = some (embed p w)) (last : w.octets[3]? ≠ some 0)
    (v4 : InAddr) (v6 : In6Addr) : converted platform true v4 v6 = (true,embed p v4) := by
  simp only [converted,if_true,found,replace_embed p w v4 last]

theorem convertText_settles (numbers : Allocator Use) (answers4 : Answers probes.ipv4 have4)
    (answers6 : Answers probes.ipv6 have6)
    (legal : platform.inet_pton v4_ip = some v4) (s : Process) (nat64_v6_ip : List UInt8) :
    Loop.Settles (fun fuel => convertText platform numbers fuel probes s v4_ip nat64_v6_ip)
      ((match converted platform have6 v4 blankV6 with
        | (ret,v6) => (ret,if ret then platform.inet_ntop v6 else nat64_v6_ip)),family numbers have4 have6 probes s) := by
  unfold convertText
  simp only [legal]
  exact (convert_settles numbers answers4 answers6 platform s v4 blankV6).bind (.done _)

-- 2001:db8:122:344::/64 for every name, with one of the well-known addresses listed first.
def site : Prefix .pl64 := ⟨[32,1,13,184,1,34,3,68],rfl⟩

def serviceV4 : InAddr := ⟨[202,38,64,59],rfl⟩

def hostV4 : InAddr := ⟨[192,0,2,33],rfl⟩

def dns64 : Platform := {
  getaddrinfo := fun name =>
    if name = tv6 then some [.inet serviceV4,.inet6 (embed site kWellKnownV4Addr1),.inet6 (embed site serviceV4)]
    else if name = ipv4onlyArpa then some [.other,.inet6 (embed site kWellKnownV4Addr1)]
    else none
  inet_pton := fun text => if text = asciiText "192.0.2.33" then some hostV4 else none
  inet_ntop := fun a => if a = embed site hostV4 then asciiText "2001:db8:122:344:c0:2:2100:0" else [] }

-- The caller's text is replaced exactly where true is returned, and then the resolver's own
-- prefix is kept, of whichever length it is. An illegal text is refused before any probe.
theorem text_exact (numbers : Allocator Use) (answers4 : Answers probes.ipv4 have4)
    (answers6 : Answers probes.ipv6 have6)
    (platform : Platform) (s : Process) (v4_ip nat64_v6_ip : List UInt8) :
    ∃ ret text, Loop.Settles (fun fuel => convertText platform numbers fuel probes s v4_ip nat64_v6_ip)
        ((ret,text),if platform.inet_pton v4_ip = none then s else family numbers have4 have6 probes s) ∧
      (ret = true ↔ have6 = true ∧ platform.inet_pton v4_ip ≠ none ∧ ∃ a, served platform = some a) ∧
      (ret = false → text = nat64_v6_ip) ∧
      ∀ pl (p : Prefix pl) (w v4 : InAddr), ret = true → served platform = some (embed p w) → w.octets[3]? ≠ some 0 →
        platform.inet_pton v4_ip = some v4 → text = platform.inet_ntop (embed p v4) := by
  cases legal : platform.inet_pton v4_ip with
  | none =>
      refine ⟨false,nat64_v6_ip,?_,by simp,fun _ => rfl,fun _ _ _ _ returned => by cases returned⟩
      unfold convertText
      simp only [legal,if_true]
      exact .done _
  | some v4 =>
      have settles := convertText_settles numbers answers4 answers6 legal s nat64_v6_ip
      have returns := converted_returns platform have6 v4 blankV6
      cases result : converted platform have6 v4 blankV6 with
      | mk ret v6 =>
          rw [result] at settles returns
          refine ⟨ret,_,settles,by simpa using returns,?_,?_⟩
          · intro refused
            rw [refused]
            rfl
          · intro pl p w u returned found last same
            cases same
            have have6 := (returns.mp returned).1
            subst have6
            rw [converted_embeds p found last] at result
            cases result
            rfl

theorem text_exact_site :
    ∃ ret text, Loop.Settles (fun fuel => convertText dns64 (.above Use) fuel ipv6Only .start (asciiText "192.0.2.33") [])
      ((ret,text),family (.above Use) false true ipv6Only .start) ∧ text = asciiText "2001:db8:122:344:c0:2:2100:0" := by
  have none4 : Answers ipv6Only.ipv4 false := .leave rfl
  have only6 : Answers ipv6Only.ipv6 true := .again rfl (.leave rfl)
  obtain ⟨ret,text,settles,returns,_,embeds⟩ := text_exact (.above Use) none4 only6 dns64 .start (asciiText "192.0.2.33") []
  have found : served dns64 = some (embed site serviceV4) := by decide +kernel
  have legal : dns64.inet_pton (asciiText "192.0.2.33") = some hostV4 := by decide +kernel
  have returned : ret = true := returns.mpr ⟨rfl,by rw [legal]; exact Option.some_ne_none _,_,found⟩
  have last : serviceV4.octets[3]? ≠ some 0 := by decide
  refine ⟨ret,text,settles,?_⟩
  rw [embeds _ site serviceV4 hostV4 returned found last legal]
  decide +kernel

-- What the first twelve octets show of an address behind a shorter prefix.
theorem take12_split (p : Prefix pl) (v : InAddr) (around : pl.octets+k = 8) :
    (embed p v).s6_addr.take 12 =
      p.octets ++ v.octets.take k ++ [0] ++ (v.octets.drop k ++ List.replicate (3+k) 0).take 3 := by
  have least : 4 ≤ pl.octets := by cases pl <;> decide
  have nine : (p.octets ++ v.octets.take k ++ [0]).length = 9 := by
    rw [List.length_append,List.length_append,List.length_take,v.whole,p.whole,List.length_singleton]
    omega
  rw [embed_split p v around,← List.append_assoc,List.take_append,nine,List.take_of_length_le (by omega)]

theorem take12_long (p : Prefix .pl96) (v : InAddr) : (embed p v).s6_addr.take 12 = p.octets := by
  rw [embed_long,List.append_assoc]
  exact List.take_left' p.whole

theorem take12_iff (p : Prefix pl) (v u : InAddr) :
    (embed p v).s6_addr.take 12 = (embed p u).s6_addr.take 12 ↔
      pl = .pl96 ∨ (pl = .pl64 ∧ v.octets.take 3 = u.octets.take 3) ∨ v = u := by
  have same : v = u ↔ v.octets = u.octets := by
    refine ⟨fun is => is ▸ rfl,fun is => ?_⟩
    cases v; cases u; cases is; rfl
  obtain ⟨v0,v1,v2,v3,hv⟩ := v.four
  obtain ⟨u0,u1,u2,u3,hu⟩ := u.four
  rw [same]
  cases pl with
  | pl32 => simp [take12_split p v (k:=4) rfl,take12_split p u (k:=4) rfl,hv,hu]
  | pl40 => simp [take12_split p v (k:=3) rfl,take12_split p u (k:=3) rfl,hv,hu]
  | pl48 => simp [take12_split p v (k:=2) rfl,take12_split p u (k:=2) rfl,hv,hu]
  | pl56 => simp [take12_split p v (k:=1) rfl,take12_split p u (k:=1) rfl,hv,hu]
  | pl64 =>
      simp [take12_split p v (k:=0) rfl,take12_split p u (k:=0) rfl,hv,hu]
      tauto
  | pl96 => simp [take12_long]

theorem copyPrefix_take (nat64In6 a : In6Addr) : (copyPrefix nat64In6 a).s6_addr.take 12 = a.s6_addr.take 12 := by
  have twelve : (a.s6_addr.take 12).length = 12 := List.length_take_of_le (by rw [a.whole]; decide)
  rw [copyPrefix,memcpy]
  exact (List.take_append_of_le_length (Nat.le_of_eq twelve.symm)).trans (List.take_of_length_le (Nat.le_of_eq twelve))

-- With IPv6 only behind one DNS64, the prefix that is announced in the first twelve octets is
-- that of the converted addresses for /96, and for a shorter one as far as the octets agree.
theorem prefixes_agree (numbers : Allocator Use) (none4 : Answers probes.ipv4 false)
    (only6 : Answers probes.ipv6 true) (p : Prefix pl) (found : served platform = some (embed p w)) (last : w.octets[3]? ≠ some 0)
    (told : announced platform = some (embed p known)) (s : Process) (v4 : InAddr) (v6 nat64In6 : In6Addr) :
    ∃ out front, Loop.Settles (fun fuel => convertV4toNat64V6 platform numbers fuel probes s v4 v6)
        ((true,out),family numbers false true probes s) ∧
      Loop.Settles (fun fuel => getNetworkNat64Prefix platform numbers fuel probes s nat64In6)
        ((true,front),family numbers false true probes s) ∧
      (out.s6_addr.take 12 = front.s6_addr.take 12 ↔
        pl = .pl96 ∨ (pl = .pl64 ∧ v4.octets.take 3 = known.octets.take 3) ∨ v4 = known) := by
  have converts := convert_settles numbers none4 only6 platform s v4 v6
  have fetches := prefix_settles numbers none4 only6 platform s nat64In6
  rw [converted_embeds p found last] at converts
  simp only [fetched,Bool.not_false,Bool.true_and,if_true,told] at fetches
  refine ⟨embed p v4,copyPrefix nat64In6 (embed p known),converts,fetches,?_⟩
  rw [copyPrefix_take]
  exact take12_iff p v4 known

theorem prefixes_agree_site :
    ∃ out front, Loop.Settles (fun fuel => convertV4toNat64V6 dns64 (.above Use) fuel ipv6Only .start hostV4 blankV6)
        ((true,out),family (.above Use) false true ipv6Only .start) ∧
      Loop.Settles (fun fuel => getNetworkNat64Prefix dns64 (.above Use) fuel ipv6Only .start blankV6)
        ((true,front),family (.above Use) false true ipv6Only .start) ∧ out.s6_addr.take 12 ≠ front.s6_addr.take 12 := by
  have none4 : Answers ipv6Only.ipv4 false := .leave rfl
  have only6 : Answers ipv6Only.ipv6 true := .again rfl (.leave rfl)
  have found : served dns64 = some (embed site serviceV4) := by decide +kernel
  have told : announced dns64 = some (embed site kWellKnownV4Addr1) := by decide +kernel
  obtain ⟨out,front,converts,fetches,agree⟩ := prefixes_agree (.above Use) none4 only6 site found (by decide) told .start
    hostV4 blankV6 blankV6
  refine ⟨out,front,converts,fetches,fun same => ?_⟩
  rcases agree.mp same with long | ⟨_,octets⟩ | is
  · cases long
  · revert octets
    decide
  · revert is
    decide

end PersonalJournal.Nat64Prefix
