import CorgiCoin.Merkle

/-!
# Network addresses

Addresses of nodes, the ranges of addresses that cannot be routed, and the groups that addresses
are sorted into.
-/

namespace CorgiCoin

/-- An IPv6 address, or an IPv4 address mapped to one. -/
structure CNetAddr where
  ip : Bytes
  length_ip : ip.length = 16
  deriving DecidableEq

def pchIPv4 : Bytes := [0, 0, 0, 0, 0, 0, 0, 0, 0, 0, 0xff, 0xff]
def pchOnionCat : Bytes := [0xFD, 0x87, 0xD8, 0x7E, 0xEB, 0x43]
def pchGarliCat : Bytes := [0xFD, 0x60, 0xDB, 0x4D, 0xDD, 0xB5]

namespace CNetAddr

variable (a : CNetAddr)

def getByte (n : ℕ) : UInt8 := a.ip.get ⟨15 - n, by rw [a.length_ip]; omega⟩

/-- `memcmp` of the first bytes with a constant gives zero. -/
def startsWith (pch : Bytes) : Bool := a.ip.take pch.length == pch

/-! ## Ranges -/

def isIPv4 : Bool := a.startsWith pchIPv4

def isRFC1918 : Bool :=
  a.isIPv4 && (a.getByte 3 == 10 || (a.getByte 3 == 192 && a.getByte 2 == 168)
    || (a.getByte 3 == 172 && (a.getByte 2 ≥ 16 && a.getByte 2 ≤ 31)))

def isRFC3927 : Bool := a.isIPv4 && (a.getByte 3 == 169 && a.getByte 2 == 254)

def isRFC3849 : Bool :=
  a.getByte 15 == 0x20 && a.getByte 14 == 0x01 && a.getByte 13 == 0x0D && a.getByte 12 == 0xB8

def isRFC3964 : Bool := a.getByte 15 == 0x20 && a.getByte 14 == 0x02

def isRFC6052 : Bool := a.startsWith [0, 0x64, 0xFF, 0x9B, 0, 0, 0, 0, 0, 0, 0, 0]

def isRFC4380 : Bool :=
  a.getByte 15 == 0x20 && a.getByte 14 == 0x01 && a.getByte 13 == 0 && a.getByte 12 == 0

def isRFC4862 : Bool := a.startsWith [0xFE, 0x80, 0, 0, 0, 0, 0, 0]

def isRFC4193 : Bool := (a.getByte 15 &&& 0xFE) == 0xFC

def isRFC6145 : Bool := a.startsWith [0, 0, 0, 0, 0, 0, 0, 0, 0xFF, 0xFF, 0, 0]

def isRFC4843 : Bool :=
  a.getByte 15 == 0x20 && a.getByte 14 == 0x01 && a.getByte 13 == 0x00
    && (a.getByte 12 &&& 0xF0) == 0x10

def isTor : Bool := a.startsWith pchOnionCat

def isI2P : Bool := a.startsWith pchGarliCat

def isLocal : Bool :=
  (a.isIPv4 && (a.getByte 3 == 127 || a.getByte 3 == 0))
    || a.startsWith [0, 0, 0, 0, 0, 0, 0, 0, 0, 0, 0, 0, 0, 0, 0, 1]

def isValid : Bool :=
  -- addresses shifted by three bytes
  if a.startsWith (pchIPv4.drop 3) then false
  else if a.startsWith (List.replicate 16 0) then false
  else if a.isRFC3849 then false
  else if a.isIPv4 then
    !(a.ip.drop 12 == [0xff, 0xff, 0xff, 0xff]) && !(a.ip.drop 12 == [0, 0, 0, 0])
  else true

def isRoutable : Bool :=
  a.isValid && !(a.isRFC1918 || a.isRFC3927 || a.isRFC4862
    || (a.isRFC4193 && !a.isTor && !a.isI2P) || a.isRFC4843 || a.isLocal)

/-! ## Groups -/

def NET_UNROUTABLE : UInt8 := 0
def NET_IPV4 : UInt8 := 1
def NET_IPV6 : UInt8 := 2
def NET_TOR : UInt8 := 3
def NET_I2P : UInt8 := 4

/-- The bytes of a group: its class, then the leading `nBits` bits from a byte on. -/
def groupBytes (nClass : UInt8) (nStartByte nBits : ℕ) : Bytes :=
  let whole := (List.range (nBits / 8)).map (fun k => a.getByte (15 - (nStartByte + k)))
  let rest :=
    if nBits % 8 > 0 then
      [a.getByte (15 - (nStartByte + nBits / 8)) ||| UInt8.ofNat (2 ^ (nBits % 8) - 1)]
    else []
  nClass :: whole ++ rest

def getGroup : Bytes :=
  -- the class that a local address gets first is replaced here: it is not routable
  if !a.isRoutable then a.groupBytes NET_UNROUTABLE 0 0
  else if a.isIPv4 || a.isRFC6145 || a.isRFC6052 then a.groupBytes NET_IPV4 12 16
  else if a.isRFC3964 then a.groupBytes NET_IPV4 2 16
  else if a.isRFC4380 then [NET_IPV4, a.getByte 3 ^^^ 0xFF, a.getByte 2 ^^^ 0xFF]
  else if a.isTor then a.groupBytes NET_TOR 6 4
  else if a.isI2P then a.groupBytes NET_I2P 6 4
  else if a.getByte 15 == 0x20 && a.getByte 14 == 0x11 && a.getByte 13 == 0x04
      && a.getByte 12 == 0x70 then
    a.groupBytes NET_IPV6 0 36
  else a.groupBytes NET_IPV6 0 32

end CNetAddr

/-! ## Services -/

/-- An address and a port. -/
structure CService extends CNetAddr where
  port : UInt16
  deriving DecidableEq

/-- `GetKey` -/
def CService.getKey (a : CService) : Bytes :=
  a.ip ++ [UInt8.ofNat (a.port.toNat / 0x100), UInt8.ofNat (a.port.toNat % 0x100)]

/-- A service as it is announced between nodes. -/
structure CAddress extends CService where
  nServices : UInt64
  nTime : UInt32
  nLastTry : ℤ
  deriving DecidableEq

end CorgiCoin
