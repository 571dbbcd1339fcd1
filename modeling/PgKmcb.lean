import PgKmcb.Lib.Run
import PgKmcb.Lib.MachineInt
import PgKmcb.Lib.Cut
import PgKmcb.Lib.Utf8
import PgKmcb.Lib.Subsequence
import PgKmcb.Lib.ReflectedCrc
import PgKmcb.Lib.Gregorian
import PgKmcb.Lib.Decimal
import PgKmcb.Lib.Base64
import PgKmcb.Lib.BlockChain
import PgKmcb.Lib.LookupTable
import PgKmcb.Postgres
import PgKmcb.Text.Std
import PgKmcb.Text.Crc32
import PgKmcb.Text.Same
import PgKmcb.Text.SameUtf8
import PgKmcb.Text.Split
import PgKmcb.Serial.Number
import PgKmcb.Serial.Date
import PgKmcb.Round.ByteUnits
import PgKmcb.Crypto.Aes
import PgKmcb.Crypto.Cbc
import PgKmcb.Crypto.PgCrypto
import PgKmcb.Lib.LcsDistance
import PgKmcb.Text.Simil
import PgKmcb.Round.Rounding
import PgKmcb.Text.SplitString
import PgKmcb.Serial.Settles
import PgKmcb.Crypto.Memory
import PgKmcb.NullPointers
import PgKmcb.Lib.Draws
import PgKmcb.Text.RandString
import PgKmcb.Text.RandTexts
import PgKmcb.Round.Rules
import PgKmcb.Round.Carry
import PgKmcb.Text.RandAnis
import PgKmcb.Crypto.Keys
import PgKmcb.Lib.Walk
import PgKmcb.Text.SplitMemory
import PgKmcb.Text.Codes
import PgKmcb.Lib.Counter
import PgKmcb.Lib.Session
import PgKmcb.Lib.BinaryPolynomial
import PgKmcb.Lib.Rijndael
import PgKmcb.Crypto.Context
import PgKmcb.Crypto.Requests
import PgKmcb.Crypto.Streams
import PgKmcb.Crypto.Messages
import PgKmcb.Crypto.Rijndael
import PgKmcb.Text.Anis
import PgKmcb.Text.Lexemes
import PgKmcb.Lib.Sliding
import PgKmcb.Text.Rejoin
import PgKmcb.Text.Likeness
import PgKmcb.Lib.CrcPolynomial
import PgKmcb.Text.CrcDivision
import PgKmcb.Serial.Order
import PgKmcb.Round.Texts
import PgKmcb.Lib.Tally
import PgKmcb.Crypto.Odds
import PgKmcb.Crypto.Builds
import PgKmcb.Round.Order
import PgKmcb.Lib.Chance
import PgKmcb.Text.Odds
