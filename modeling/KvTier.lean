import KvTier.Analysis.Evictions
import KvTier.Analysis.Durability
import KvTier.Analysis.PublishOrder
import KvTier.Analysis.CheckpointLimits
import KvTier.Analysis.JournalRefinement
import KvTier.Analysis.CheckpointCodec
import KvTier.Analysis.ShardQueue
import KvTier.Analysis.Superblock
import KvTier.Analysis.StripeEvict
import KvTier.Analysis.Expiry
import KvTier.Analysis.Pins
import KvTier.Analysis.Hashing
import KvTier.Analysis.Hotness
import KvTier.Analysis.GcTicks
import KvTier.Analysis.Tombstones
import KvTier.Analysis.IoBackends
import KvTier.Analysis.BatchEnds
import KvTier.Analysis.RegionDrops
import KvTier.Analysis.RadixWalks
import KvTier.Analysis.ReadYourWrites
import KvTier.Analysis.JournalAcks
import KvTier.Analysis.Rotations
import KvTier.Analysis.Staging
import KvTier.Analysis.BatchRegions
import KvTier.Analysis.SideWords
import KvTier.Analysis.StripeSlices
import KvTier.Analysis.Bursts
import KvTier.Analysis.CuckooRuns
import KvTier.Analysis.DramBudgets
import KvTier.Analysis.DramBlocks
import KvTier.Analysis.ModelProfiles
