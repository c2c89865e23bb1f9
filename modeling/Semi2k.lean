import Semi2k.Core.NdArray
import Semi2k.Core.RingOps
import Semi2k.Core.Prog
import Semi2k.Core.BeaverCache
import Semi2k.Core.Joint
import Semi2k.Kernels.Conversion
import Semi2k.Kernels.Multiplication
import Semi2k.Kernels.Truncation
import Semi2k.Sharing
import Semi2k.SignedRing
import Semi2k.Reconstruction
import Semi2k.Products
import Semi2k.Truncations
import Semi2k.PrivateProduct
import Semi2k.FieldMismatch
import Semi2k.Squares
import Semi2k.Resharing
import Semi2k.Privacy
import Semi2k.MaskedOpenings
import Semi2k.ReplayCache
import Semi2k.CacheSessions
import Semi2k.Aborts
import Semi2k.WorldSize
import Semi2k.Vectorization
import Semi2k.Pipeline
import Semi2k.Channels
