import QueryFusion.Main
import QueryFusion.Proofs.Fusion.Advances
import QueryFusion.Proofs.Fusion.AggregatePipeline
import QueryFusion.Proofs.Fusion.GroupPipeline
import QueryFusion.Proofs.Fusion.Independence
import QueryFusion.Proofs.Engine.Best
import QueryFusion.Proofs.Fusion.Pushed
import QueryFusion.Proofs.Value.Encoding
